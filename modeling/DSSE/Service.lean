import DSSE.Client
import DSSE.Refinement
import DSSE.Storage

/-! The server process: `ListenAndServe` with its save directory, stopped and started again, and the
    requests that clients send it. -/

namespace DSSE
open Schemes Std

variable (tc : Tomcrypt)

/-- A server process and its save directory. -/
structure Machine where
  core : Core
  dir : Dir

/-- A process started on a directory: `Load`, whose result the program only warns about. -/
def Machine.boot (dir : Dir) : Bool × Machine :=
  let (ok, core) := loadServer Core.new dir
  (ok, ⟨core, dir⟩)

/-- One iteration of `ListenAndServe` for a request that was parsed: handle it and pass the reply on,
    then save the state unless it was a search. -/
def Machine.serve (m : Machine) (req : Msg.Request) : Except Halt (Machine × Option Reply) := do
  let (core, reply) ← handleMessage tc m.core req
  match req.msg with
  | some (.search _) => return (⟨core, m.dir⟩, reply)
  | _ =>
    let (core, dir) := saveServer core m.dir
    return (⟨core, dir⟩, reply)

/-- The request that a method of the client in this state sends. Setup sends none where it throws. -/
def Op.request (client : Core) : Op → Option Msg.Request
  | .setup version keys tokens fileids =>
    match Client.setupRequest tc client version keys tokens fileids with
    | .ok (_, req) => some req
    | .error _ => none
  | .add stack id words => some (Client.addRequest tc client stack id words).2.1
  | .delete id words => some (Client.deleteRequest tc client id words)
  | .search w => some (Client.searchRequest tc client w)

/-! ### What clients send -/

variable {tc}

/-- The server when the handler has left `core` behind. -/
def Machine.after (m : Machine) (req : Msg.Request) (core : Core) : Machine :=
  match req.msg with
  | some (.search _) => ⟨core, m.dir⟩
  | _ => ⟨(saveServer core m.dir).1, (saveServer core m.dir).2⟩

theorem Machine.serve_eq (m : Machine) (req : Msg.Request) :
    m.serve tc req = (handleMessage tc m.core req).map fun r => (m.after req r.1, r.2) := by
  rw [Machine.serve]
  cases handleMessage tc m.core req with
  | error e => rfl
  | ok r =>
    simp only [bind, Except.bind, Except.map, Machine.after]
    split <;> rfl

theorem Restored.refl (core : Core) : Restored core core := ⟨rfl, rfl, Or.inl rfl, rfl, rfl, rfl⟩

/-- The server's half of a Setup. -/
theorem handleMessage_setup {client : Core} {version : ℤ} {keys : Keys} {tokens : List Bytes}
    {fileids : Postings} {req : Msg.Request}
    (hreq : Op.request tc client (.setup version keys tokens fileids) = some req) :
    ∃ client' L M, setupClient tc version client keys tokens fileids = .ok (client', L, M) ∧
      (∃ m, req.msg = some (.setup m)) ∧ ∀ server,
        handleMessage tc server req = .ok (setupServer version server L M, some .empty) := by
  rw [Op.request, Client.setupRequest] at hreq
  cases hs : setupClient tc version client keys tokens fileids with
  | error e => rw [hs] at hreq; cases hreq
  | ok r =>
    obtain ⟨client', L, M⟩ := r
    have hver := castVersion_toInt tc hs
    have hL : L.map ((fun p : Msg.TokenPair => (⟨p.Counter, p.FileID⟩ : SetupPair)) ∘
        fun p => ⟨p.Token, p.FileID⟩) = L := List.map_id'' (fun _ => rfl) L
    rw [hs] at hreq
    simp only [bind, Except.bind, pure, Except.pure, Option.some.injEq] at hreq
    subst hreq
    refine ⟨client', L, M, rfl, ⟨_, rfl⟩, fun server => ?_⟩
    simp only [handleMessage, handleSetup, Msg.Request.getVersion, Option.getD_some, hver,
      List.map_map, hL]

/-- The server's half of an Add. -/
theorem handleMessage_add (client : Core) (stack : Stack) (id : UInt64) (words : List Bytes)
    (server : Core) :
    handleMessage tc server (Client.addRequest tc client stack id words).2.1 =
      .ok ((addServer server (addClient tc client stack id words).2.1).1,
        some (.result ⟨.add ⟨(addServer server (addClient tc client stack id words).2.1).2.map
          fun x => x != 0⟩⟩)) := by
  have hL : (addClient tc client stack id words).2.1.map
      ((fun p : Msg.Pair => (⟨p.Token, p.FileID, p.RevID⟩ : AddPair)) ∘
        fun p => ⟨p.Token, p.FileID, p.RevID⟩) = (addClient tc client stack id words).2.1 :=
    List.map_id'' (fun _ => rfl) _
  simp only [Client.addRequest, handleMessage, handleAdd, List.map_map, hL]

/-- The server's half of a Search. -/
theorem handleMessage_search (client : Core) (w : Bytes) (server : Core) :
    handleMessage tc server (Client.searchRequest tc client w) =
      (searchServer tc server (searchClient tc client w)).map fun ids =>
        (server, some (.searchResult ⟨ids.map UInt64.toInt64⟩)) := by
  simp only [Client.searchRequest, handleMessage, handleSearch, searchKeys_searchRequest]
  cases searchServer tc server (searchClient tc client w) <;> rfl

/-! ### What is saved -/

theorem addServerPair_sameIndex (core : Core) (q : AddPair) :
    SameIndex core (addServerPair core q).1 ∧ (addServerPair core q).1.dirtyD = core.dirtyD := by
  rcases addServerPair_cases core q with ⟨-, h⟩ | ⟨-, -, h⟩ | ⟨-, -, h⟩ <;> rw [h] <;>
    exact ⟨⟨rfl, rfl, rfl⟩, rfl⟩

theorem addServer_sameIndex (L : List AddPair) (core : Core) :
    SameIndex core (addServer core L).1 ∧ (addServer core L).1.dirtyD = core.dirtyD := by
  induction L generalizing core with
  | nil => exact ⟨.refl core, rfl⟩
  | cons q L ih =>
    obtain ⟨hsame, hdirty⟩ := addServerPair_sameIndex core q
    obtain ⟨hsame', hdirty'⟩ := ih (addServerPair core q).1
    rw [addServer]
    exact ⟨hsame.trans hsame', hdirty'.trans hdirty⟩

theorem Writable.insert {map : Dmap} (h : Writable map) {k v : Bytes} (hkv : Entry (k, v)) :
    Writable (map.insert k v) := by
  intro k' v' hget
  rw [ExtTreeMap.getElem?_insert] at hget
  split at hget
  · rename_i heq
    cases hget
    rwa [← LawfulEqCmp.compare_eq_iff_eq.mp heq]
  · exact h k' v' hget

theorem Saveable.addServer (L : List AddPair) {core : Core} (h : Saveable core)
    (hL : ∀ q ∈ L, Entry (q.Token, q.FileID)) : Saveable (DSSE.addServer core L).1 := by
  induction L generalizing core with
  | nil => exact h
  | cons q L ih =>
    rw [DSSE.addServer]
    refine ih ?_ fun q' hq' => hL q' (List.mem_cons_of_mem _ hq')
    rcases addServerPair_cases core q with ⟨-, hq⟩ | ⟨-, -, hq⟩ | ⟨-, -, hq⟩ <;> rw [hq]
    · exact { h with Srev := fun r hr => h.Srev r (ExtTreeSet.mem_erase.mp hr).2 }
    · exact h
    · exact { h with Dplus := h.Dplus.insert (hL q List.mem_cons_self) }

theorem Saveable.deleteServer {core : Core} (h : Saveable core) {L : List Bytes}
    (hL : ∀ r ∈ L, r.length = KEYLEN) : Saveable (DSSE.deleteServer core L) := by
  refine { h with Srev := fun r hr => ?_ }
  rcases (mem_foldl_insert L core.Srev r).mp hr with hr | hr
  · exact h.Srev r hr
  · exact hL r hr

/-- The pairs that AddClient makes are of the right sizes. -/
theorem addClient_entries (client : Core) (stack : Stack) (id : UInt64) (words : List Bytes) :
    ∀ q ∈ (addClient tc client stack id words).2.1, Entry (q.Token, q.FileID) := by
  obtain ⟨-, -, -, hpairs⟩ := addTokenPairs_spec tc stack id words client 0
  intro q hq
  obtain ⟨p, hp, rfl⟩ := List.mem_map.mp hq
  obtain ⟨surplus, hlen, he⟩ := hpairs p ((List.perm_insertionSort _ _).mem_iff.mp hp)
  have hl : p.l.length = KEYLEN := by rw [he]; exact length_macLong tc _ _
  have hd : p.d.length = ENCRYPTED_BLOCK_SIZE := by
    rw [he, addTokenPair, List.length_append, encryptLong, length_encryptBytes, hlen]
    rfl
  refine ⟨hl, ?_⟩
  rw [hd]
  decide

theorem deleteClient_keylen (client : Core) (id : UInt64) (words : List Bytes) :
    ∀ r ∈ deleteClient tc client id words, r.length = KEYLEN := by
  intro r hr
  obtain ⟨w, -, rfl⟩ := (mem_deleteClient client id words r).mp hr
  exact length_derived tc _ _ _

/-! External blocks are of one size, whatever the layout. -/

theorem fillPointerBlock_ext (K2 : Bytes) (j : ℕ) : ∀ (fids : List UInt64) (M : List Bytes),
    (∀ b ∈ M, b.length = ENCRYPTED_BLOCK_SIZE) →
    ∀ b ∈ (fillPointerBlock tc K2 j fids M).2.2, b.length = ENCRYPTED_BLOCK_SIZE := by
  induction j with
  | zero => intro fids M hM; exact hM
  | succ j ih =>
    intro fids M hM
    have hM' : ∀ b ∈ M ++ [encryptBytes tc K2 (fillFileidBlock B fids).1],
        b.length = ENCRYPTED_BLOCK_SIZE := by
      intro b hb
      rcases List.mem_append.mp hb with hb | hb
      · exact hM b hb
      · rw [List.mem_singleton.mp hb, length_encryptBytes, fillFileidBlock_eq, length_flatMap_putu64,
          length_padded]
        rfl
    rw [fillPointerBlock]
    simp only
    split
    · exact hM'
    · exact ih _ _ hM'

theorem pointerBlocks_ext (K2 : Bytes) (fuel : ℕ) : ∀ (fids : List UInt64) (M : List Bytes),
    (∀ b ∈ M, b.length = ENCRYPTED_BLOCK_SIZE) →
    ∀ b ∈ (pointerBlocks tc K2 fuel fids M).2, b.length = ENCRYPTED_BLOCK_SIZE := by
  induction fuel with
  | zero => intro fids M hM; exact hM
  | succ fuel ih =>
    intro fids M hM
    rw [pointerBlocks]
    split
    · exact hM
    · exact ih _ _ (fillPointerBlock_ext K2 B fids M hM)

theorem indexTokens_ext {v : Version} {lay : Layout} (hlay : v.layout? tc = some lay) (key : Bytes)
    (fileids : Postings) (tokens : List Bytes) : ∀ {M M' : List Bytes} {L : List TokenPair},
    indexTokens tc lay.encode key fileids tokens M = .ok (L, M') →
    (∀ b ∈ M, b.length = ENCRYPTED_BLOCK_SIZE) → ∀ b ∈ M', b.length = ENCRYPTED_BLOCK_SIZE := by
  have hencode : ∀ K2 fids M, (∀ b ∈ M, b.length = ENCRYPTED_BLOCK_SIZE) →
      ∀ b ∈ (lay.encode K2 fids M).2, b.length = ENCRYPTED_BLOCK_SIZE := by
    intro K2 fids M hM
    cases v with
    | Basic => cases hlay; exact hM
    | Packed => cases hlay; exact hM
    | Pointer => cases hlay; exact pointerBlocks_ext K2 _ fids M hM
    | TwoLevelPointer => cases hlay
  induction tokens with
  | nil => intro M M' L h hM; cases h; exact hM
  | cons w tokens ih =>
    intro M M' L h hM
    rw [indexTokens] at h
    obtain ⟨fids, -, h⟩ := exists_of_bind_ok h
    obtain ⟨⟨L', M₁⟩, hidx, h⟩ := exists_of_bind_ok h
    cases h
    exact ih hidx (hencode _ fids M hM)

end DSSE
