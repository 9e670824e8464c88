import DSSE.Updates

/-! Client processes that start from one saved state and share a server. A call of `Client::Add` is
    three steps, AddClient, AddServer and AddClient2, and the steps of the processes interleave in any
    order. As long as the server never meets a label that is taken, every process counts at most the
    labels stored, and an add that returned true is found until its pair is deleted. -/

namespace DSSE
open Schemes Std

/-- How far a process is in its call of `Client::Add`: no call, waiting for the server to handle the
    pairs `L`, or about to read the flags `r`. `W` are the words in the order of the pairs. -/
inductive Phase where
  | idle
  | sent (id : UInt64) (words : List Bytes) (L : List AddPair) (W : List Bytes)
  | replied (id : UInt64) (words : List Bytes) (r : List UInt8) (W : List Bytes)

structure Session where
  core : Core
  phase : Phase

/-- The server, the saved client state and the processes, numbered. -/
structure Sessions where
  server : Core
  file : Core
  session : ℕ → Session

/-- What SaveClientToStorage writes, read back by a new client. -/
def savedClient (core : Core) : Core :=
  { Core.new with
    version := core.version
    key := core.key
    kplus := core.kplus
    kminus := core.kminus
    Dcount := core.Dcount }

/-- All processes start from the saved state of one client. -/
def Sessions.start (p : Pair) : Sessions where
  server := p.server
  file := savedClient p.client
  session _ := ⟨savedClient p.client, .idle⟩

/-- A step of process `i`. A process that is killed and started again is a `load`. -/
inductive Event where
  | load (i : ℕ)
  | save (i : ℕ)
  | addClient (i : ℕ) (stack : Stack) (id : UInt64) (words : List Bytes)
  | addServer (i : ℕ)
  | addClient2 (i : ℕ)
  | delete (i : ℕ) (id : UInt64) (words : List Bytes)

def Sessions.set (s : Sessions) (i : ℕ) (x : Session) : Sessions :=
  { s with session := Function.update s.session i x }

variable (tc : Tomcrypt)

/-- One step and the add that returns true in it. A step that its process is not ready for does
    nothing. -/
def Sessions.step (s : Sessions) : Event → Except Halt (Sessions × List (UInt64 × List Bytes))
  | .load i => .ok (s.set i ⟨s.file, .idle⟩, [])
  | .save i => .ok ({ s with file := savedClient (s.session i).core }, [])
  | .addClient i stack id words =>
    match (s.session i).phase with
    | .idle =>
      let (core, L, W) := addClient tc (s.session i).core stack id words
      .ok (s.set i ⟨core, .sent id words L W⟩, [])
    | _ => .ok (s, [])
  | .addServer i =>
    match (s.session i).phase with
    | .sent id words L W =>
      let (server, r) := addServer s.server L
      .ok ({ s.set i ⟨(s.session i).core, .replied id words r W⟩ with server := server }, [])
    | _ => .ok (s, [])
  | .addClient2 i =>
    match (s.session i).phase with
    | .replied id words r W => do
      let core ← addClient2 (s.session i).core r W
      return (s.set i ⟨core, .idle⟩, [(id, words)])
    | _ => .ok (s, [])
  | .delete i id words =>
    match (s.session i).phase with
    | .idle =>
      let L := deleteClient tc (s.session i).core id words
      .ok ({ s with server := deleteServer s.server L }, [])
    | _ => .ok (s, [])

def Sessions.calls (s : Sessions) : Event → List MacCall
  | .addClient i _ id words =>
    match (s.session i).phase with
    | .idle => addCalls tc (s.session i).core id words
    | _ => []
  | .delete i id words =>
    match (s.session i).phase with
    | .idle => deleteCalls tc (s.session i).core id words
    | _ => []
  | _ => []

/-- An interleaving, and the adds that returned true in it. -/
def Sessions.run (s : Sessions) (es : List Event) :
    Except Halt (Sessions × List (UInt64 × List Bytes)) :=
  runs (Sessions.step tc) s es

def Sessions.runCalls (s : Sessions) (es : List Event) : List MacCall :=
  runLog (Sessions.step tc) (Sessions.calls tc) s es

/-- The client and the server that a later call of process `i` has. -/
def Sessions.pair (s : Sessions) (i : ℕ) : Pair := ⟨(s.session i).core, s.server⟩

/-- AddServer handles the pairs without its warning that a label is taken. -/
def NoWarning : Core → List AddPair → Prop
  | _, [] => True
  | core, q :: L =>
    (q.RevID ∈ core.Srev ∨ q.Token ∉ core.Dplus) ∧ NoWarning (addServerPair core q).1 L

instance decidableNoWarning : ∀ (core : Core) (L : List AddPair), Decidable (NoWarning core L)
  | _, [] => isTrue trivial
  | core, q :: L =>
    @instDecidableAnd _ _ inferInstance (decidableNoWarning (addServerPair core q).1 L)

/-- The pairs that wait for the server meet no label that is taken there, and the labels stored stay
    fewer than a 64-bit counter counts. -/
def Phase.Quiet (server : Core) : Phase → Prop
  | .sent _ _ L _ => NoWarning server L ∧ server.Dplus.size + L.length < 2 ^ 64
  | _ => True

instance (server : Core) : DecidablePred (Phase.Quiet server)
  | .sent _ _ L _ => inferInstanceAs (Decidable (NoWarning server L ∧ _ < _))
  | .idle => isTrue trivial
  | .replied .. => isTrue trivial

/-- An AddServer step is done without the warning. -/
def Sessions.Quiet (s : Sessions) : Event → Prop
  | .addServer i => (s.session i).phase.Quiet s.server
  | _ => True

instance (s : Sessions) : DecidablePred s.Quiet
  | .addServer i => inferInstanceAs (Decidable ((s.session i).phase.Quiet s.server))
  | .load _ => isTrue trivial
  | .save _ => isTrue trivial
  | .addClient .. => isTrue trivial
  | .addClient2 _ => isTrue trivial
  | .delete .. => isTrue trivial

/-- The words of the step are seen whole by `strlen`. -/
def Event.NulFree : Event → Prop
  | .addClient _ _ _ words => ∀ w ∈ words, DSSE.NulFree w
  | .delete _ _ words => ∀ w ∈ words, DSSE.NulFree w
  | _ => True

/-! ### The steps of one add -/

/-- With nothing in between, the three steps of a process are one `Client::Add`. -/
theorem Sessions.run_add {s : Sessions} {i : ℕ} (hidle : (s.session i).phase = .idle) {p : Pair}
    {stack : Stack} {id : UInt64} {words : List Bytes}
    (hadd : Client.add tc (s.pair i) stack id words = .ok (p, true)) :
    s.run tc [.addClient i stack id words, .addServer i, .addClient2 i] =
      .ok ({ s.set i ⟨p.client, .idle⟩ with server := p.server }, [(id, words)]) := by
  obtain ⟨client, L, W, hL⟩ : ∃ client L W,
      addClient tc (s.session i).core stack id words = (client, L, W) := ⟨_, _, _, rfl⟩
  obtain ⟨server, r, hr⟩ : ∃ server r, DSSE.addServer s.server L = (server, r) := ⟨_, _, rfl⟩
  have hadd' := Client.add_ok tc hadd
  rw [Pair.add, Sessions.pair, hL] at hadd'
  simp only [hr] at hadd'
  obtain ⟨client', hclient, hp⟩ := exists_of_bind_ok hadd'
  cases hp
  rw [Sessions.run, runs, Sessions.step]
  simp only [hidle, hL, bind, Except.bind, runs, Sessions.step, Sessions.set, Function.update_self, hr,
    hclient, pure, Except.pure, Function.update_idem, List.nil_append, List.append_nil]

variable {tc} {log : List MacCall} {keys : Keys} {server : Core} {ix ix' : PlainIndex Bytes UInt64}
  {dels : Set (Bytes × UInt64)}

theorem size_addServerPair_le (core : Core) (q : AddPair) :
    (addServerPair core q).1.Dplus.size ≤ core.Dplus.size + 1 := by
  rcases addServerPair_cases core q with ⟨-, h⟩ | ⟨-, -, h⟩ | ⟨-, -, h⟩ <;> rw [h]
  · exact Nat.le_succ _
  · exact Nat.le_succ _
  · exact ExtTreeMap.size_insert_le

theorem Tracks.length_le_size (hs : Tracks tc log keys server ix) (hn : NoCollision tc log)
    (w : Bytes) : (ix.added w).length ≤ server.Dplus.size := by
  obtain ⟨cts, hfiled, henc⟩ := hs.added
  rw [← (henc w).length_eq]
  exact hfiled.length_le_size hn w

/-- A pair made from a counter that is not ahead, handled without the warning: there is a flag for it,
    and a flag 0 stands for an id appended to its word. -/
theorem Tracks.pair_noWarning (hs : Tracks tc log keys server ix) (hn : NoCollision tc log) {id : UInt64}
    {u : Bytes} {c : ℕ} {q : AddPair} (hq : PairFor tc log keys id u c q)
    (hc : c ≤ (ix.added u).length) (hwarn : q.RevID ∈ server.Srev ∨ q.Token ∉ server.Dplus)
    (hsize : server.Dplus.size + 1 < 2 ^ 64) :
    ∃ server' flag, addServerPair server q = (server', [flag]) ∧ SameIndex server server' ∧
      Tracks tc log keys server' (ix.addWord id u) ∧
      ∀ w, (ix.added w).length + (if (u, flag) == (w, 0) then 1 else 0) ≤
        ((ix.addWord id u).added w).length := by
  by_cases hrev : (u, id) ∈ ix.revoked
  · obtain ⟨server', hstep, hsame, hs'⟩ := hs.revoked_pair hn hq hrev
    refine ⟨server', 1, hstep, hsame, hs', fun w => ?_⟩
    have hne : ((u, (1 : UInt8)) == (w, 0)) = false := by simp
    rw [hne]
    exact (PlainIndex.added_prefix_addWord id ix u w).length_le
  · have hsrev : q.RevID ∉ server.Srev := by
      rw [hq.revid, hs.mem_srev hn hq.nulFree hq.revid_logged]
      exact hrev
    -- a counter that is behind would have met its label
    have hnext : c = (ix.added u).length := by
      refine hc.antisymm (Nat.le_of_not_lt fun hlt => ?_)
      have hclash := hs.clash_pair hn hq hrev hlt
      rw [addServerPair_stored hsrev (hwarn.resolve_left hsrev)] at hclash
      simp at hclash
    rw [hnext] at hq
    have hroom := hs.length_le_size hn u
    obtain ⟨server', hstep, hsame, hs'⟩ := hs.stored_pair hn hq hrev (by omega)
    refine ⟨server', 0, hstep, hsame, hs', fun w => ?_⟩
    rw [PlainIndex.addWord_added]
    by_cases hwu : w = u
    · subst hwu
      rw [if_pos (beq_self_eq_true _), if_pos ⟨rfl, hrev⟩, List.length_append, List.length_singleton]
    · have hne : ((u, (0 : UInt8)) == (w, 0)) = false := by simp [Ne.symm hwu]
      rw [hne, if_neg Bool.false_ne_true, if_neg fun h => hwu h.1]
      exact le_rfl

/-- Pairs made from counters that are not ahead, handled without the warning: there is a flag for each
    pair, and each flag 0 stands for an id appended to its word. -/
theorem Tracks.addServer_noWarning (hn : NoCollision tc log) {id : UInt64} {c : Bytes → ℕ} :
    ∀ (L : List TokenPair) {server : Core} {ix : PlainIndex Bytes UInt64},
    Tracks tc log keys server ix → (∀ w, c w ≤ (ix.added w).length) →
    (∀ q ∈ L, PairFor tc log keys id q.w (c q.w) ⟨q.l, q.d, q.r⟩) →
    NoWarning server (L.map fun q => ⟨q.l, q.d, q.r⟩) → server.Dplus.size + L.length < 2 ^ 64 →
    ∃ server' r, DSSE.addServer server (L.map fun q => ⟨q.l, q.d, q.r⟩) = (server', r) ∧
      r.length = L.length ∧ SameIndex server server' ∧
      Tracks tc log keys server' (ix.add id (L.map (·.w))) ∧
      ∀ w, (ix.added w).length + ((L.map (·.w)).zip r).count (w, 0) ≤
        ((ix.add id (L.map (·.w))).added w).length := by
  intro L
  induction L with
  | nil =>
    intro server ix hs _ _ _ _
    exact ⟨server, [], rfl, rfl, .refl server, hs, fun w => by simp⟩
  | cons q L ih =>
    rintro server ix hs hc hpairs ⟨hwarn, hquiet⟩ hsize
    have hrest : ∀ q' ∈ L, PairFor tc log keys id q'.w (c q'.w) ⟨q'.l, q'.d, q'.r⟩ :=
      fun q' hq' => hpairs q' (List.mem_cons_of_mem _ hq')
    have hc₁ : ∀ w, c w ≤ ((ix.addWord id q.w).added w).length := fun w =>
      (hc w).trans (PlainIndex.added_prefix_addWord id ix q.w w).length_le
    have hgrow := size_addServerPair_le server ⟨q.l, q.d, q.r⟩
    rw [List.length_cons] at hsize
    obtain ⟨server₁, flag, hstep, hsame, hs₁, hcount₁⟩ :=
      hs.pair_noWarning hn (hpairs q List.mem_cons_self) (hc q.w) hwarn (by omega)
    simp only [hstep] at hquiet hgrow
    obtain ⟨server', r, hserver, hlen, hsame', hs', hcount⟩ := ih hs₁ hc₁ hrest hquiet (by omega)
    rw [List.map_cons, List.map_cons, DSSE.addServer, PlainIndex.add_cons, hstep]
    simp only [hserver]
    refine ⟨server', flag :: r, rfl, by rw [List.length_cons, hlen, List.length_cons],
      hsame.trans hsame', hs', fun w => ?_⟩
    have h₁ := hcount₁ w
    have h := hcount w
    rw [List.zip_cons_cons, List.count_cons]
    omega

/-- AddClient2 counts the flags 0 of each word. -/
theorem addClient2_zip : ∀ (r : List UInt8) (core : Core) (W : List Bytes), r.length ≤ W.length →
    ∃ core', addClient2 core r W = .ok core' ∧ core'.keys = core.keys ∧
      ∀ w, core'.count w = core.count w + UInt64.ofNat ((W.zip r).count (w, 0)) := by
  intro r
  induction r with
  | nil => intro core W _; exact ⟨core, rfl, rfl, fun w => by simp⟩
  | cons flag r ih =>
    intro core W hlen
    cases W with
    | nil => simp at hlen
    | cons u W =>
      rw [List.length_cons, List.length_cons, Nat.add_le_add_iff_right] at hlen
      by_cases hflag : flag = 0
      · subst hflag
        obtain ⟨core', hadd, hkeys, hcount⟩ := ih (core.bump u) W hlen
        refine ⟨core', by rw [addClient2, if_pos rfl, hadd], hkeys, fun w => ?_⟩
        rw [hcount, Core.count_bump, List.zip_cons_cons, List.count_cons]
        by_cases hwu : w = u
        · subst hwu
          rw [if_pos rfl, if_pos (beq_self_eq_true _), ofNat_succ, add_assoc, add_comm 1]
        · have hne : ((u, (0 : UInt8)) == (w, 0)) = false := by simp [Ne.symm hwu]
          rw [if_neg hwu, hne, if_neg (by decide), Nat.add_zero]
      · obtain ⟨core', hadd, hkeys, hcount⟩ := ih core W hlen
        refine ⟨core', by rw [addClient2, if_neg hflag]; exact hadd, hkeys, fun w => ?_⟩
        have hne : ((u, flag) == (w, 0)) = false := by simp [hflag]
        rw [hcount, List.zip_cons_cons, List.count_cons, hne, if_neg (by decide), Nat.add_zero]

theorem addClient2_counts (r : List UInt8) (core : Core) (W : List Bytes)
    (hlen : r.length = W.length) :
    ∃ core', addClient2 core r W = .ok core' ∧ core'.keys = core.keys ∧
      ∀ w, (core'.count w).toNat ≤ (core.count w).toNat + (W.zip r).count (w, 0) := by
  obtain ⟨core', hadd, hkeys, hcount⟩ := addClient2_zip r core W hlen.le
  refine ⟨core', hadd, hkeys, fun w => ?_⟩
  rw [hcount, UInt64.toNat_add, UInt64.toNat_ofNat']
  exact (Nat.mod_le _ _).trans (Nat.add_le_add_left (Nat.mod_le _ _) _)

/-! ### Interleavings -/

/-- Every word of the add has the file, unless a delete of the pair was issued. -/
def Found (dels : Set (Bytes × UInt64)) (ix : PlainIndex Bytes UInt64) (id : UInt64)
    (words : List Bytes) : Prop :=
  ∀ w ∈ words, DSSE.NulFree w ∧ ((w, id) ∉ dels → id ∈ ix.added w)

/-- A client state that counts at most the labels stored. -/
structure Behind (keys : Keys) (ix : PlainIndex Bytes UInt64) (core : Core) : Prop where
  keys : core.keys = keys
  counts : ∀ w, (core.count w).toNat ≤ (ix.added w).length

/-- What holds of a process between its steps. -/
def Session.Sound (tc : Tomcrypt) (log : List MacCall) (keys : Keys) (dels : Set (Bytes × UInt64))
    (ix : PlainIndex Bytes UInt64) (x : Session) : Prop :=
  Behind keys ix x.core ∧
    match x.phase with
    | .idle => True
    | .sent id words L W => ∃ pairs : List TokenPair,
        L = pairs.map (fun q => ⟨q.l, q.d, q.r⟩) ∧ W = pairs.map (·.w) ∧ W.Perm words ∧
        ∀ q ∈ pairs, PairFor tc log keys id q.w (x.core.count q.w).toNat ⟨q.l, q.d, q.r⟩
    | .replied id words r W => r.length = W.length ∧ Found dels ix id words ∧
        ∀ w, (x.core.count w).toNat + (W.zip r).count (w, 0) ≤ (ix.added w).length

/-- The invariant of the interleavings after the Setup that left `server`: a plain index says what is
    stored, no process is ahead of it, and the adds that returned true are in it. -/
structure Sessions.Sound (tc : Tomcrypt) (log : List MacCall) (keys : Keys)
    (dels : Set (Bytes × UInt64)) (server : Core) (ix : PlainIndex Bytes UInt64) (s : Sessions)
    (acked : List (UInt64 × List Bytes)) : Prop where
  tracks : Tracks tc log keys s.server ix
  sameIndex : SameIndex server s.server
  revoked : ∀ q ∈ ix.revoked, q ∈ dels
  file : Behind keys ix s.file
  session : ∀ i, (s.session i).Sound tc log keys dels ix
  acked : ∀ a ∈ acked, Found dels ix a.1 a.2

theorem Found.mono {id : UInt64} {words : List Bytes} (h : Found dels ix id words)
    (hgrow : ∀ w, ix.added w <+: ix'.added w) : Found dels ix' id words :=
  fun w hw => ⟨(h w hw).1, fun hd => (hgrow w).subset ((h w hw).2 hd)⟩

theorem Behind.mono {core : Core} (h : Behind keys ix core)
    (hgrow : ∀ w, ix.added w <+: ix'.added w) : Behind keys ix' core :=
  ⟨h.keys, fun w => (h.counts w).trans (hgrow w).length_le⟩

theorem Session.Sound.mono {x : Session} (h : x.Sound tc log keys dels ix)
    (hgrow : ∀ w, ix.added w <+: ix'.added w) : x.Sound tc log keys dels ix' := by
  obtain ⟨core, phase⟩ := x
  obtain ⟨hbehind, hphase⟩ := h
  refine ⟨hbehind.mono hgrow, ?_⟩
  cases phase with
  | idle => trivial
  | sent id words L W => exact hphase
  | replied id words r W =>
    obtain ⟨hlen, hfound, hcount⟩ := hphase
    exact ⟨hlen, hfound.mono hgrow, fun w => (hcount w).trans (hgrow w).length_le⟩

theorem Behind.saved {core : Core} (h : Behind keys ix core) : Behind keys ix (savedClient core) :=
  ⟨h.keys, h.counts⟩

/-- A process moves to a new state that is sound. -/
theorem Sessions.Sound.set {s : Sessions} {acked : List (UInt64 × List Bytes)}
    (h : s.Sound tc log keys dels server ix acked) {i : ℕ} {x : Session}
    (hx : x.Sound tc log keys dels ix) : (s.set i x).Sound tc log keys dels server ix acked where
  tracks := h.tracks
  sameIndex := h.sameIndex
  revoked := h.revoked
  file := h.file
  session j := by
    rcases eq_or_ne j i with rfl | hne
    · simp only [Sessions.set, Function.update_self]
      exact hx
    · simp only [Sessions.set, Function.update_of_ne hne]
      exact h.session j
  acked := h.acked

theorem Sessions.Sound.addClient {s : Sessions} {acked : List (UInt64 × List Bytes)} {i : ℕ}
    {stack : Stack} {id : UInt64} {words : List Bytes}
    (h : s.Sound tc log keys dels server ix acked) (hidle : (s.session i).phase = .idle)
    (hw : ∀ w ∈ words, DSSE.NulFree w) (hlog : addCalls tc (s.session i).core id words ⊆ log) :
    ∃ s', s.step tc (.addClient i stack id words) = .ok (s', []) ∧
      s'.Sound tc log keys dels server ix acked := by
  have hbehind := (h.session i).1
  obtain ⟨core', pairs, hadd, hkeys, hcount, hperm, hfor⟩ :=
    addClient_spec (s.session i).core stack hw hlog
      (c := fun w => ((s.session i).core.count w).toNat) fun w => UInt64.ofNat_toNat.symm
  rw [hbehind.keys] at hkeys hfor
  refine ⟨_, by rw [Sessions.step]; simp only [hidle, hadd]; rfl, h.set ⟨?_, ?_⟩⟩
  · exact ⟨hkeys, fun w => by rw [hcount]; exact hbehind.counts w⟩
  · refine ⟨pairs, rfl, rfl, hperm, fun q hq => ?_⟩
    simp only [hcount]
    exact hfor q hq

theorem Sessions.Sound.addServer {s : Sessions} {acked : List (UInt64 × List Bytes)} {i : ℕ}
    {id : UInt64} {words : List Bytes} {L : List AddPair} {W : List Bytes}
    (h : s.Sound tc log keys dels server ix acked) (hn : NoCollision tc log)
    (hsent : (s.session i).phase = .sent id words L W) (hwarn : NoWarning s.server L)
    (hsize : s.server.Dplus.size + L.length < 2 ^ 64) :
    ∃ s', s.step tc (.addServer i) = .ok (s', []) ∧
      s'.Sound tc log keys dels server (ix.add id words) acked := by
  obtain ⟨hbehind, hphase⟩ := h.session i
  rw [hsent] at hphase
  obtain ⟨pairs, rfl, rfl, hperm, hfor⟩ := hphase
  rw [List.length_map] at hsize
  obtain ⟨server', r, hserver, hlen, hsame, hs', hcount⟩ :=
    h.tracks.addServer_noWarning hn pairs hbehind.counts hfor hwarn hsize
  rw [PlainIndex.add_perm hperm ix id] at hs' hcount
  have hgrow := PlainIndex.added_prefix_add id words ix
  refine ⟨_, by rw [Sessions.step]; simp only [hsent, hserver]; rfl, ?_⟩
  refine ⟨hs', h.sameIndex.trans hsame, fun q hq => ?_, h.file.mono hgrow, fun j => ?_,
    fun a ha => (h.acked a ha).mono hgrow⟩
  · exact h.revoked q ((PlainIndex.mem_revoked_add id ix q).mp hq).1
  rcases eq_or_ne j i with rfl | hne
  · simp only [Sessions.set, Function.update_self]
    refine ⟨hbehind.mono hgrow, by rw [hlen, List.length_map], fun w hw => ?_, fun w => ?_⟩
    · obtain ⟨q, hq, rfl⟩ := List.mem_map.mp (hperm.mem_iff.mpr hw)
      refine ⟨(hfor q hq).nulFree, fun hd => PlainIndex.mem_added_add id hw fun hrev => ?_⟩
      exact hd (h.revoked _ hrev)
    · exact (Nat.add_le_add_right (hbehind.counts w) _).trans (hcount w)
  · simp only [Sessions.set, Function.update_of_ne hne]
    exact (h.session j).mono hgrow

theorem Sessions.Sound.addClient2 {s : Sessions} {acked : List (UInt64 × List Bytes)} {i : ℕ}
    {id : UInt64} {words : List Bytes} {r : List UInt8} {W : List Bytes}
    (h : s.Sound tc log keys dels server ix acked)
    (hreplied : (s.session i).phase = .replied id words r W) :
    ∃ s', s.step tc (.addClient2 i) = .ok (s', [(id, words)]) ∧
      s'.Sound tc log keys dels server ix (acked ++ [(id, words)]) := by
  obtain ⟨hbehind, hphase⟩ := h.session i
  rw [hreplied] at hphase
  obtain ⟨hlen, hfound, hcount⟩ := hphase
  obtain ⟨core', hadd, hkeys, hcount'⟩ := addClient2_counts r (s.session i).core W hlen
  have hset : (s.set i ⟨core', .idle⟩).Sound tc log keys dels server ix acked :=
    h.set ⟨⟨hkeys.trans hbehind.keys, fun w => (hcount' w).trans (hcount w)⟩, trivial⟩
  refine ⟨_, by rw [Sessions.step]; simp only [hreplied, hadd]; rfl, { hset with acked := ?_ }⟩
  intro a ha
  rcases List.mem_append.mp ha with ha | ha
  · exact h.acked a ha
  · rw [List.mem_singleton.mp ha]
    exact hfound

theorem Sessions.Sound.delete {s : Sessions} {acked : List (UInt64 × List Bytes)} {i : ℕ}
    {id : UInt64} {words : List Bytes} (h : s.Sound tc log keys dels server ix acked)
    (hidle : (s.session i).phase = .idle) (hw : ∀ w ∈ words, DSSE.NulFree w)
    (hdels : ∀ w ∈ words, (w, id) ∈ dels) (hlog : deleteCalls tc (s.session i).core id words ⊆ log) :
    ∃ s', s.step tc (.delete i id words) = .ok (s', []) ∧
      s'.Sound tc log keys dels server (ix.delete id words) acked := by
  have hkeys := (h.session i).1.keys
  have hs' := h.tracks.delete (s.session i).core hkeys hw hlog
  refine ⟨{ s with server := deleteServer s.server (deleteClient tc (s.session i).core id words) },
    by rw [Sessions.step]; simp only [hidle], hs', h.sameIndex.trans ⟨rfl, rfl, rfl⟩,
    fun q hq => ?_, h.file.mono fun _ => List.prefix_rfl,
    fun j => (h.session j).mono fun _ => List.prefix_rfl,
    fun a ha => (h.acked a ha).mono fun _ => List.prefix_rfl⟩
  rcases (PlainIndex.mem_revoked_delete ix id words q).mp hq with hq | ⟨hq, hid⟩
  · exact h.revoked q hq
  · have := hdels q.1 hq
    rwa [← hid] at this

/-- What a step of an interleaving may be for its adds to be found. -/
structure Sessions.Allowed (dels : Set (Bytes × UInt64)) (s : Sessions) (e : Event) : Prop where
  quiet : s.Quiet e
  nulFree : e.NulFree
  dels : ∀ i id words, e = .delete i id words → ∀ w ∈ words, (w, id) ∈ dels

theorem Sessions.Sound.step {s : Sessions} {acked : List (UInt64 × List Bytes)} {e : Event}
    (hn : NoCollision tc log) (h : s.Sound tc log keys dels server ix acked)
    (he : s.Allowed dels e) (hlog : s.calls tc e ⊆ log) :
    ∃ s' out, s.step tc e = .ok (s', out) ∧
      ∃ ix', s'.Sound tc log keys dels server ix' (acked ++ out) := by
  have hnothing : s.step tc e = .ok (s, []) → ∃ s' out, s.step tc e = .ok (s', out) ∧
      ∃ ix', s'.Sound tc log keys dels server ix' (acked ++ out) :=
    fun hs => ⟨s, [], hs, ix, by rwa [List.append_nil]⟩
  have hquiet : ∀ {s' ix'}, s.step tc e = .ok (s', []) →
      s'.Sound tc log keys dels server ix' acked → ∃ s' out, s.step tc e = .ok (s', out) ∧
      ∃ ix', s'.Sound tc log keys dels server ix' (acked ++ out) :=
    fun hs h' => ⟨_, [], hs, _, by rwa [List.append_nil]⟩
  cases e with
  | load i => exact hquiet rfl (h.set ⟨h.file, trivial⟩)
  | save i => exact hquiet rfl { h with file := (h.session i).1.saved }
  | addClient i stack id words =>
    cases hphase : (s.session i).phase with
    | idle =>
      rw [Sessions.calls] at hlog
      simp only [hphase] at hlog
      obtain ⟨s', hs, h'⟩ := h.addClient hphase he.nulFree hlog
      exact hquiet hs h'
    | sent => exact hnothing (by rw [Sessions.step]; simp only [hphase])
    | replied => exact hnothing (by rw [Sessions.step]; simp only [hphase])
  | addServer i =>
    cases hphase : (s.session i).phase with
    | idle => exact hnothing (by rw [Sessions.step]; simp only [hphase])
    | sent id words L W =>
      have hroom := he.quiet
      rw [Sessions.Quiet, hphase] at hroom
      obtain ⟨s', hs, h'⟩ := h.addServer hn hphase hroom.1 hroom.2
      exact hquiet hs h'
    | replied => exact hnothing (by rw [Sessions.step]; simp only [hphase])
  | addClient2 i =>
    cases hphase : (s.session i).phase with
    | idle => exact hnothing (by rw [Sessions.step]; simp only [hphase])
    | sent => exact hnothing (by rw [Sessions.step]; simp only [hphase])
    | replied id words r W =>
      obtain ⟨s', hs, h'⟩ := h.addClient2 hphase
      exact ⟨s', _, hs, ix, h'⟩
  | delete i id words =>
    cases hphase : (s.session i).phase with
    | idle =>
      rw [Sessions.calls] at hlog
      simp only [hphase] at hlog
      obtain ⟨s', hs, h'⟩ := h.delete hphase he.nulFree (he.dels i id words rfl) hlog
      exact hquiet hs h'
    | sent => exact hnothing (by rw [Sessions.step]; simp only [hphase])
    | replied => exact hnothing (by rw [Sessions.step]; simp only [hphase])

theorem Sessions.Sound.run {s : Sessions} {acked : List (UInt64 × List Bytes)} {es : List Event}
    (hn : NoCollision tc log) (h : s.Sound tc log keys dels server ix acked)
    (hes : Along (Sessions.step tc) (Sessions.Allowed dels) s es) (hlog : s.runCalls tc es ⊆ log) :
    ∃ s' acked', s.run tc es = .ok (s', acked') ∧
      ∃ ix', s'.Sound tc log keys dels server ix' (acked ++ acked') := by
  refine runs_invariant (I := fun s acked => ∃ ix, s.Sound tc log keys dels server ix acked) ?_ es s
    acked ⟨ix, h⟩ hes hlog
  rintro s acked e ⟨ix, h⟩ he hcalls
  exact h.step hn he hcalls

/-- The start of an interleaving is sound after a Setup on a fresh pair. -/
theorem Sessions.Sound.start {version : ℤ} {tokens : List Bytes} {fileids : Postings} {p : Pair}
    (hsetup : Pair.fresh.setup tc version keys tokens fileids = .ok p) :
    (Sessions.start p).Sound tc log keys dels p.server (.ofBase fun _ => []) [] := by
  obtain ⟨hkeys, hcount, hDplus, hSrev⟩ := Pair.setup_state hsetup
  have hbehind : Behind keys (.ofBase fun _ => []) (savedClient p.client) := by
    refine ⟨hkeys, fun w => ?_⟩
    rw [Core.count, savedClient, hcount]
    simp [Pair.fresh, Core.new]
  exact ⟨Tracks.ofBase hDplus hSrev _, .refl _, by simp [PlainIndex.ofBase], hbehind,
    fun _ => ⟨hbehind, trivial⟩, by simp⟩

/-- The pairs of word and file that the deletes of an interleaving name. -/
def deletedPairs (es : List Event) : Set (Bytes × UInt64) :=
  { q | ∃ i words, Event.delete i q.2 words ∈ es ∧ q.1 ∈ words }

theorem along_allowed {es : List Event} {s : Sessions}
    (hes : ∀ e ∈ es, e.NulFree ∧ ∀ i id words, e = .delete i id words → ∀ w ∈ words, (w, id) ∈ dels)
    (hquiet : Along (Sessions.step tc) Sessions.Quiet s es) :
    Along (Sessions.step tc) (Sessions.Allowed dels) s es := by
  refine (hquiet.and (Along.of_forall fun _ e he => hes e he)).imp ?_
  rintro s e ⟨hquiet, hnul, hdels⟩
  exact ⟨hquiet, hnul, hdels⟩

/-- In every interleaving after a Setup in which AddServer never meets a label that is taken, whatever
    Add returned true is found by every process, unless a Delete of the pair was issued: for words that
    `strlen` sees whole. -/
theorem Sessions.found_of_nulFree (tc : Tomcrypt) {version : ℤ} {keys : Keys} {tokens : List Bytes}
    {fileids : Postings} {p : Pair} {es : List Event}
    (hsetup : Client.setup tc Pair.fresh version keys tokens fileids = .ok (p, true))
    (hids : postingsTotal fileids tokens < INVALID.toNat) (hnul : ∀ e ∈ es, e.NulFree)
    (hquiet : Along (Sessions.step tc) Sessions.Quiet (.start p) es)
    (hn : NoCollision tc (setupCalls tc version keys tokens fileids ++
      (Sessions.start p).runCalls tc es)) :
    ∃ s acked, (Sessions.start p).run tc es = .ok (s, acked) ∧
      ∀ id words, (id, words) ∈ acked → ∀ w ∈ words,
        (∀ i words', Event.delete i id words' ∈ es → w ∉ words') → ∀ i,
          NoCollision tc (setupCalls tc version keys tokens fileids ++
            (Sessions.start p).runCalls tc es ++ (s.pair i).searchCalls tc w) →
          ∃ ids, Client.search tc (s.pair i) w = .ok (s.pair i, ids) ∧ id ∈ ids := by
  have hsetup' := Client.setup_ok tc hsetup
  obtain ⟨v, lay, hlay, rfl⟩ := Pair.setup_version hsetup'
  obtain ⟨hver, entries, hbuilt⟩ := Pair.setup_built hlay hsetup' hids
  have hallowed : Along (Sessions.step tc) (Sessions.Allowed (deletedPairs es)) (.start p) es := by
    refine along_allowed (fun e he => ⟨hnul e he, ?_⟩) hquiet
    rintro i id words rfl w hw
    exact ⟨i, words, he, hw⟩
  obtain ⟨s, acked, hrun, ix, h⟩ := (Sessions.Sound.start hsetup').run hn hallowed
    (List.subset_append_right _ _)
  refine ⟨s, acked, hrun, fun id words hacked w hw hkept i hn' => ?_⟩
  obtain ⟨hwnul, hfound⟩ := h.acked (id, words) hacked w hw
  have hnotdel : (w, id) ∉ deletedPairs es := by
    rintro ⟨j, words', hmem, hw'⟩
    exact hkept j words' hmem hw'
  have hkeys := (h.session i).1.keys
  obtain ⟨log, hlog⟩ : ∃ log, setupCalls tc v.toInt keys tokens fileids ++
    (Sessions.start p).runCalls tc es ++ (s.pair i).searchCalls tc w = log := ⟨_, rfl⟩
  rw [hlog] at hn'
  have hsub : setupCalls tc v.toInt keys tokens fileids ++ (Sessions.start p).runCalls tc es ⊆ log := by
    rw [← hlog]; exact List.subset_append_left _ _
  have htracks : Tracks tc log (s.pair i).client.keys s.server ix := by
    rw [show (s.pair i).client.keys = keys from hkeys]
    exact h.tracks.mono hsub
  obtain ⟨outs, hm, -⟩ := (hbuilt.mono (List.Subset.trans (List.subset_append_left _ _) hsub)).meets
    (layout_right tc hlay) hn' hids w
  rw [← h.sameIndex.D, ← h.sameIndex.A, ← show (s.pair i).client.key = keys.key from
    congrArg Keys.key hkeys] at hm
  have hsearch := htracks.search hlay (h.sameIndex.version.trans hver) hn' hwnul hm
    (by rw [← hlog]; exact List.subset_append_right _ _)
  refine ⟨_, by rw [Client.search_eq, hsearch]; rfl, ?_⟩
  rw [List.mem_filter, decide_eq_true_eq]
  exact ⟨List.mem_append_right _ (hfound hnotdel), fun hrev => hnotdel (h.revoked _ hrev)⟩

end DSSE
