import DSSE.Restart

/-! A server that may be killed at any moment, also between the reply to a request and the save, and
    between the file writes of a save. What the next process loads is the state of a server that was
    never killed and handled the same requests but for some whose save was cut short. -/

namespace DSSE
open Schemes Std

/-- What befalls a server: it handles a request and saves its state; or it handles a request and is
    killed when `writes` files of the save are written; or it is killed at another moment. A new
    process is started after each kill. -/
inductive Strike where
  | serve (client : Core) (op : Op)
  | crash (client : Core) (op : Op) (writes : ℕ)
  | stop

section
variable (tc : Tomcrypt)

/-- An iteration of `ListenAndServe` that is cut short after `writes` file writes. -/
def Machine.cut (m : Machine) (req : Msg.Request) (writes : ℕ) : Except Halt Machine := do
  let (core, _) ← handleMessage tc m.core req
  match req.msg with
  | some (.search _) => return ⟨core, m.dir⟩
  | _ => return ⟨core, ((saveWrites core).take writes).foldl Dir.write m.dir⟩

/-- One strike, and the result of the load if a new process is started. -/
def Machine.strike (m : Machine) : Strike → Except Halt (Machine × List Bool)
  | .serve client op => (m.step tc (.call client op)).map fun (m, _) => (m, [])
  | .crash client op writes => do
    let m ← match op.request tc client with
      | none => .ok m
      | some req => m.cut tc req writes
    let (ok, m) := Machine.boot m.dir
    return (m, [ok])
  | .stop =>
    let (ok, m) := Machine.boot m.dir
    .ok (m, [ok])

def Machine.strikes (m : Machine) (strikes : List Strike) : Except Halt (Machine × List Bool) :=
  runs (Machine.strike tc) m strikes

/-- A Setup is not cut inside its save (the last of the five files does not change in it), and an Add
    not between the writes of `Dplus` and `Srev` if it changes both. -/
def Machine.Whole (m : Machine) : Strike → Prop
  | .crash _ (.setup ..) writes => writes = 0 ∨ 4 ≤ writes
  | .crash client (.add stack id words) writes =>
    let core := (addServer m.core (addClient tc client stack id words).2.1).1
    writes = 2 → core.Dplus = m.core.Dplus ∨ core.Srev = m.core.Srev
  | _ => True

/-- The HMAC computations of the Setups. -/
def Strike.setupCalls : Strike → List MacCall
  | .serve _ (.setup version keys tokens fileids) => DSSE.setupCalls tc version keys tokens fileids
  | .crash _ (.setup version keys tokens fileids) _ => DSSE.setupCalls tc version keys tokens fileids
  | _ => []

end

/-- The request of the strike is not a Search, and the postings of a Setup have fewer ids than there
    are block numbers. -/
def Strike.Fits : Strike → Prop
  | .serve _ (.search _) => False
  | .crash _ (.search _) _ => False
  | .serve client op => Turn.Fits (.call client op)
  | .crash client op _ => Turn.Fits (.call client op)
  | .stop => True

/-- The number of files that the save after the request writes. -/
def Op.writes : Op → ℕ
  | .setup .. => 5
  | _ => 3

/-- What stays of a strike: a request whose save is complete stays, one whose save is cut short stays
    or is lost. -/
inductive Strike.Keeps : Strike → List Turn → Prop
  | serve (client : Core) (op : Op) : Keeps (.serve client op) [.call client op]
  | saved (client : Core) (op : Op) (writes : ℕ) : Keeps (.crash client op writes) [.call client op]
  | lost (client : Core) {op : Op} {writes : ℕ} (h : writes < op.writes) :
      Keeps (.crash client op writes) []
  | stop : Keeps .stop []

variable {tc : Tomcrypt} {log : List MacCall}

/-! ### Saves cut short -/

/-- A save without `D` and `A`, cut after `writes` files. -/
theorem OnDisk.cut_update {dir : Dir} {old new core : Core} (h : OnDisk dir old)
    (hsame : SameIndex old new) (hr : Restored new core) (hclean : new.dirtyD = false) {writes : ℕ}
    (hwhole : writes = 2 → new.Dplus = old.Dplus ∨ new.Srev = old.Srev) :
    let dir' := ((saveWrites core).take writes).foldl Dir.write dir
    OnDisk dir' old ∧ writes < 3 ∨ OnDisk dir' new := by
  have hdirty : core.dirtyD = false := hr.dirtyD.trans hclean
  have hwrites : saveWrites core = [(.version, writeInt core.version), (.Dplus, writeMap core.Dplus),
      (.Srev, writeRevlist core.Srev)] := by
    rw [saveWrites, hdirty]; rfl
  intro dir'
  have hdir' : dir' = ((saveWrites core).take writes).foldl Dir.write dir := rfl
  rw [hwrites, hr.version, hsame.version, hr.Dplus, hr.Srev] at hdir'
  rcases writes with _ | _ | _ | n
  · exact Or.inl ⟨h, by omega⟩
  · -- the version file gets what it holds already
    refine Or.inl ⟨?_, by omega⟩
    rw [hdir']
    constructor <;> simp [Dir.write, Function.update, h.D, h.A, h.Dplus, h.Srev]
  · rcases hwhole rfl with hDplus | hSrev
    · refine Or.inl ⟨?_, by omega⟩
      rw [hdir', hDplus]
      constructor <;> simp [Dir.write, Function.update, h.D, h.A, h.Srev]
    · refine Or.inr ?_
      rw [hdir']
      constructor <;> simp [Dir.write, Function.update, h.D, h.A, h.Srev, hsame.version, hsame.D,
        hsame.A, hSrev]
  · refine Or.inr ?_
    rw [hdir']
    constructor <;> simp [Dir.write, Function.update, h.D, h.A, hsame.version, hsame.D, hsame.A]

/-- A save after a Setup, not cut inside. -/
theorem OnDisk.cut_setup {dir : Dir} {old : Core} (h : OnDisk dir old) (new : Core)
    (hdirty : new.dirtyD = true) (hSrev : new.Srev = old.Srev) {writes : ℕ}
    (hwhole : writes = 0 ∨ 4 ≤ writes) :
    let dir' := ((saveWrites new).take writes).foldl Dir.write dir
    OnDisk dir' old ∧ writes < 5 ∨ OnDisk dir' new := by
  have hwrites : saveWrites new = [(.version, writeInt new.version), (.D, writeMap new.D),
      (.A, writeBlocks new.A), (.Dplus, writeMap new.Dplus), (.Srev, writeRevlist new.Srev)] := by
    rw [saveWrites, hdirty]; rfl
  intro dir'
  have hdir' : dir' = ((saveWrites new).take writes).foldl Dir.write dir := rfl
  rw [hwrites] at hdir'
  rcases hwhole with rfl | hge
  · exact Or.inl ⟨h, by omega⟩
  · obtain ⟨n, rfl⟩ := Nat.exists_eq_add_of_le' hge
    refine Or.inr ?_
    rw [hdir']
    rcases n with _ | n
    · constructor <;> simp [Dir.write, Function.update, h.Srev, hSrev]
    · constructor <;> simp [Dir.write, Function.update]

/-- A new process goes on from what is on disk. -/
theorem OnDisk.boot {dir : Dir} {m₀ : Machine} (h : OnDisk dir m₀.core) (hs : Saveable m₀.core)
    (hclean : m₀.core.dirtyD = false) (hx : Indexes tc log m₀.core) :
    ∃ m, Machine.boot dir = (true, m) ∧ Follows tc log m m₀ := by
  obtain ⟨core', hload, hr⟩ := h.load hs hclean
  exact ⟨⟨core', dir⟩, by rw [Machine.boot, hload], hr, hs, h, hclean, hx⟩

/-! ### Runs with kills -/

/-- After the strike the server is in the state of one that handled what stays of it and was never
    killed. -/
def Survives (tc : Tomcrypt) (log : List MacCall) (m m₀ : Machine) (s : Strike) : Prop :=
  ∃ m' oks turns m₀' outs, m.strike tc s = .ok (m', oks) ∧ (∀ ok ∈ oks, ok = true) ∧ s.Keeps turns ∧
    m₀.run tc turns = .ok (m₀', outs) ∧ Follows tc log m' m₀'

theorem Machine.run_call {m m' : Machine} {client : Core} {op : Op} {req : Msg.Request}
    {reply : Option Reply} (hreq : op.request tc client = some req)
    (hserve : m.serve tc req = .ok (m', reply)) :
    m.run tc [.call client op] = .ok (m', [.reply reply]) := by
  have hstep : m.step tc (.call client op) = .ok (m', [.reply reply]) := by
    rw [Machine.step, hreq]
    simp only [hserve]
    rfl
  rw [Machine.run, runs_cons hstep]
  rfl

theorem Machine.strike_stop {m m₀ : Machine} (h : Follows tc log m m₀) :
    ∃ m', m.strike tc .stop = .ok (m', [true]) ∧ Follows tc log m' m₀ := by
  obtain ⟨m', hboot, h'⟩ := h.disk.boot h.saveable h.clean h.indexes
  exact ⟨m', by rw [Machine.strike, hboot], h'⟩

/-- Whatever a kill leaves on disk is the state before the request or the state behind it. -/
theorem Machine.strike_cut {m m₀ m₁ m₂ : Machine} {client : Core} {op : Op} {writes : ℕ}
    {req : Msg.Request} {core : Core} {reply : Option Reply} (h : Follows tc log m m₀)
    (hreq : op.request tc client = some req) (hhandle : handleMessage tc m.core req = .ok (core, reply))
    (hsearch : ∀ k, req.msg ≠ some (.search k)) (h₁ : Follows tc log m₂ m₁)
    (hcut : let dir' := ((saveWrites core).take writes).foldl Dir.write m.dir
      OnDisk dir' m₀.core ∧ writes < op.writes ∨ OnDisk dir' m₁.core) :
    ∃ m', m.strike tc (.crash client op writes) = .ok (m', [true]) ∧
      (Follows tc log m' m₀ ∧ writes < op.writes ∨ Follows tc log m' m₁) := by
  have hstrike : m.strike tc (.crash client op writes) =
      .ok ((Machine.boot (((saveWrites core).take writes).foldl Dir.write m.dir)).2,
        [(Machine.boot (((saveWrites core).take writes).foldl Dir.write m.dir)).1]) := by
    rw [Machine.strike, hreq]
    simp only [Machine.cut, hhandle, bind, Except.bind]
    cases hm : req.msg with
    | none => rfl
    | some msg =>
      cases msg with
      | search k => exact absurd hm (hsearch k)
      | setup => rfl
      | add => rfl
      | delete => rfl
  rcases hcut with ⟨hold, hlt⟩ | hnew
  · obtain ⟨m', hboot, h'⟩ := hold.boot h.saveable h.clean h.indexes
    exact ⟨m', by rw [hstrike, hboot], Or.inl ⟨h', hlt⟩⟩
  · obtain ⟨m', hboot, h'⟩ := hnew.boot h₁.saveable h₁.clean h₁.indexes
    exact ⟨m', by rw [hstrike, hboot], Or.inr h'⟩

theorem Survives.serve {m m₀ m' m₀' : Machine} {client : Core} {op : Op} {req : Msg.Request}
    {reply : Option Reply} (hreq : op.request tc client = some req)
    (hm : m.serve tc req = .ok (m', reply)) (hm₀ : m₀.serve tc req = .ok (m₀', reply))
    (h : Follows tc log m' m₀') : Survives tc log m m₀ (.serve client op) := by
  refine ⟨m', [], _, m₀', _, ?_, by simp, .serve client op, Machine.run_call hreq hm₀, h⟩
  rw [Machine.strike, Machine.step, hreq]
  simp only [hm]
  rfl

theorem Survives.crash {m m₀ m₁ m₂ : Machine} {client : Core} {op : Op} {writes : ℕ}
    {req : Msg.Request} {core : Core} {reply reply₀ : Option Reply} (h : Follows tc log m m₀)
    (hreq : op.request tc client = some req) (hhandle : handleMessage tc m.core req = .ok (core, reply))
    (hsearch : ∀ k, req.msg ≠ some (.search k)) (hm₀ : m₀.serve tc req = .ok (m₁, reply₀))
    (h₁ : Follows tc log m₂ m₁)
    (hcut : let dir' := ((saveWrites core).take writes).foldl Dir.write m.dir
      OnDisk dir' m₀.core ∧ writes < op.writes ∨ OnDisk dir' m₁.core) :
    Survives tc log m m₀ (.crash client op writes) := by
  obtain ⟨m', hstrike, ⟨h', hlt⟩ | h'⟩ := Machine.strike_cut h hreq hhandle hsearch h₁ hcut
  · exact ⟨m', _, [], m₀, [], hstrike, by simp, .lost client hlt, rfl, h'⟩
  · exact ⟨m', _, _, m₁, _, hstrike, by simp, .saved client op writes, Machine.run_call hreq hm₀, h'⟩

/-- An Add or a Delete whose save is cut. -/
theorem Survives.update {m m₀ : Machine} {client : Core} {op : Op} {writes : ℕ} {req : Msg.Request}
    {core core₀ : Core} {reply reply₀ : Reply} (h : Follows tc log m m₀)
    (hreq : op.request tc client = some req)
    (hhandle : handleMessage tc m.core req = .ok (core, some reply))
    (hhandle₀ : handleMessage tc m₀.core req = .ok (core₀, some reply₀))
    (hsearch : ∀ k, req.msg ≠ some (.search k)) (hr : Restored core₀ core)
    (hsame : SameIndex m₀.core core₀) (hs : Saveable core₀) (hclean : core₀.dirtyD = false)
    (hwrites : op.writes = 3)
    (hwhole : writes = 2 → core.Dplus = m.core.Dplus ∨ core.Srev = m.core.Srev) :
    Survives tc log m m₀ (.crash client op writes) := by
  have hwhole₀ : writes = 2 → core₀.Dplus = m₀.core.Dplus ∨ core₀.Srev = m₀.core.Srev := by
    intro h2
    rw [← hr.Dplus, ← hr.Srev, ← h.restored.Dplus, ← h.restored.Srev]
    exact hwhole h2
  have hserve₀ : m₀.serve tc req = .ok (⟨(saveServer core₀ m₀.dir).1, (saveServer core₀ m₀.dir).2⟩,
      some reply₀) := by
    rw [Machine.serve, hhandle₀]
    simp only [bind, Except.bind]
    cases hm : req.msg with
    | none => rfl
    | some msg =>
      cases msg with
      | search k => exact absurd hm (hsearch k)
      | setup => rfl
      | add => rfl
      | delete => rfl
  refine Survives.crash h hreq hhandle hsearch hserve₀ (h.update hr hsame hs hclean) ?_
  rcases h.disk.cut_update hsame hr hclean hwhole₀ with ⟨hold, hlt⟩ | hnew
  · exact Or.inl ⟨hold, by omega⟩
  · exact Or.inr ⟨hnew.version, hnew.D, hnew.A, hnew.Dplus, hnew.Srev⟩

/-- A Setup whose save is not cut inside. -/
theorem Survives.setup {m m₀ : Machine} {client : Core} {version : ℤ} {keys : Keys}
    {tokens : List Bytes} {fileids : Postings} {writes : ℕ} {req : Msg.Request}
    (h : Follows tc log m m₀)
    (hreq : Op.request tc client (.setup version keys tokens fileids) = some req)
    (hids : postingsTotal fileids tokens < INVALID.toNat)
    (hlog : setupCalls tc version keys tokens fileids ⊆ log) (hwhole : writes = 0 ∨ 4 ≤ writes) :
    Survives tc log m m₀ (.crash client (.setup version keys tokens fileids) writes) := by
  obtain ⟨client', L, M, -, ⟨msg, hmsg⟩, hhandle⟩ := handleMessage_setup hreq
  obtain ⟨m', m₀', hm, hm₀, h'⟩ :=
    Machine.serve_setup h.restored.Srev h.saveable.Srev hreq hids hlog
  have hm₀' : m₀'.core = { setupServer version m₀.core L M with dirtyD := false } := by
    rw [Machine.serve, hhandle] at hm₀
    simp only [hmsg, bind, Except.bind, pure, Except.pure, Except.ok.injEq, Prod.mk.injEq] at hm₀
    rw [← hm₀.1]; rfl
  refine Survives.crash h hreq (hhandle m.core) (by simp [hmsg]) hm₀ h' ?_
  rcases h.disk.cut_setup (setupServer version m.core L M) rfl h.restored.Srev hwhole with
    ⟨hold, hlt⟩ | hnew
  · exact Or.inl ⟨hold, hlt⟩
  · refine Or.inr ?_
    rw [hm₀']
    refine ⟨hnew.version, hnew.D, hnew.A, hnew.Dplus, hnew.Srev.trans ?_⟩
    rw [show (setupServer version m.core L M).Srev = m.core.Srev from rfl, h.restored.Srev]
    rfl

theorem Follows.strike {m m₀ : Machine} (h : Follows tc log m m₀) {s : Strike} (hfits : s.Fits)
    (hwhole : m.Whole tc s) (hlog : s.setupCalls tc ⊆ log) : Survives tc log m m₀ s := by
  cases s with
  | stop =>
    obtain ⟨m', hm, h'⟩ := Machine.strike_stop h
    exact ⟨m', _, [], m₀, [], hm, by simp, .stop, rfl, h'⟩
  | serve client op =>
    cases op with
    | setup version keys tokens fileids =>
      cases hreq : Op.request tc client (.setup version keys tokens fileids) with
      | none =>
        have hstep : ∀ n : Machine, n.step tc (.call client (.setup version keys tokens fileids)) =
            .ok (n, []) := by
          intro n
          rw [Machine.step, hreq]
        refine ⟨m, [], _, m₀, [], by rw [Machine.strike, hstep]; rfl, by simp, .serve client _, ?_, h⟩
        rw [Machine.run, runs_cons (hstep m₀)]
        rfl
      | some req =>
        obtain ⟨m', m₀', hm, hm₀, h'⟩ :=
          Machine.serve_setup h.restored.Srev h.saveable.Srev hreq hfits hlog
        exact .serve hreq hm hm₀ h'
    | add stack id words =>
      obtain ⟨m', m₀', reply, hm, hm₀, h'⟩ := h.add client stack id words
      exact .serve rfl hm hm₀ h'
    | delete id words =>
      obtain ⟨m', m₀', reply, hm, hm₀, h'⟩ := h.delete client id words
      exact .serve rfl hm hm₀ h'
    | search w => exact hfits.elim
  | crash client op writes =>
    cases op with
    | setup version keys tokens fileids =>
      cases hreq : Op.request tc client (.setup version keys tokens fileids) with
      | none =>
        obtain ⟨m', hm, h'⟩ := Machine.strike_stop h
        have hstep : m₀.step tc (.call client (.setup version keys tokens fileids)) = .ok (m₀, []) := by
          rw [Machine.step, hreq]
        refine ⟨m', [true], _, m₀, [], ?_, by simp, .saved client _ writes, ?_, h'⟩
        · rw [← hm, Machine.strike, Machine.strike, hreq]
          rfl
        · rw [Machine.run, runs_cons hstep]
          rfl
      | some req => exact .setup h hreq hfits hlog hwhole
    | add stack id words =>
      let L := (addClient tc client stack id words).2.1
      obtain ⟨hsame, hdirty⟩ := addServer_sameIndex L m₀.core
      exact .update h rfl (handleMessage_add client stack id words m.core)
        (handleMessage_add client stack id words m₀.core) (by simp [Client.addRequest])
        (h.restored.addServer L).2 hsame
        (h.saveable.addServer L (addClient_entries client stack id words)) (hdirty.trans h.clean) rfl
        hwhole
    | delete id words =>
      let L := deleteClient tc client id words
      exact .update h rfl rfl rfl (by simp [Client.deleteRequest]) (h.restored.deleteServer L)
        ⟨rfl, rfl, rfl⟩ (h.saveable.deleteServer (deleteClient_keylen client id words)) h.clean rfl
        fun _ => Or.inl rfl
    | search w => exact hfits.elim

theorem Follows.strikes (strikes : List Strike) : ∀ {m m₀ : Machine}, Follows tc log m m₀ →
    (∀ s ∈ strikes, s.Fits) → Along (Machine.strike tc) (Machine.Whole tc) m strikes →
    strikes.flatMap (Strike.setupCalls tc) ⊆ log →
    ∃ m' oks kept m₀' outs, m.strikes tc strikes = .ok (m', oks) ∧ (∀ ok ∈ oks, ok = true) ∧
      List.Forall₂ Strike.Keeps strikes kept ∧ m₀.run tc kept.flatten = .ok (m₀', outs) ∧
      Follows tc log m' m₀' := by
  induction strikes with
  | nil =>
    intro m m₀ h _ _ _
    exact ⟨m, [], [], m₀, [], rfl, by simp, .nil, rfl, h⟩
  | cons s strikes ih =>
    rintro m m₀ h hfits ⟨hwhole, hrest⟩ hlog
    rw [List.flatMap_cons, List.append_subset] at hlog
    obtain ⟨m₁, oks, turns, n₁, outs, hm, hoks, hkeeps, hn, h₁⟩ :=
      h.strike (hfits s List.mem_cons_self) hwhole hlog.1
    rw [hm] at hrest
    obtain ⟨m₂, oks', kept, n₂, outs', hms, hoks', hkept, hns, h₂⟩ :=
      ih h₁ (fun s' hs' => hfits s' (List.mem_cons_of_mem _ hs')) hrest hlog.2
    refine ⟨m₂, oks ++ oks', turns :: kept, n₂, outs ++ outs', ?_, ?_, .cons hkeeps hkept, ?_, h₂⟩
    · rw [Machine.strikes] at hms
      rw [Machine.strikes, runs_cons hm, hms]
      rfl
    · intro ok hok
      rcases List.mem_append.mp hok with hok | hok
      · exact hoks ok hok
      · exact hoks' ok hok
    · rw [Machine.run] at hn hns
      rw [Machine.run, List.flatten_cons, runs_append hn, hns]
      rfl

theorem Indexes.mono {log' : List MacCall} {server : Core} (h : Indexes tc log server)
    (hsub : log ⊆ log') : Indexes tc log' server := by
  obtain ⟨v, lay, key, fileids, tokens, entries, hlay, hver, hids, hbuilt⟩ := h
  exact ⟨v, lay, key, fileids, tokens, entries, hlay, hver, hids, hbuilt.mono hsub⟩

/-- A server whose first request is a Setup that it saves, and that may then be killed at any moment but
    inside the save of a Setup or between the two writes of an Add that changes both `Dplus` and
    `Srev`: every load succeeds, and searches find what they find after the requests of the run, but
    for some whose save was cut short. -/
theorem Machine.killed (dir : Dir) {client : Core} {version : ℤ} {keys : Keys}
    {tokens : List Bytes} {fileids : Postings} {req : Msg.Request}
    (hsetup : Op.request tc client (.setup version keys tokens fileids) = some req)
    {strikes : List Strike}
    (hfits : ∀ s ∈ .serve client (.setup version keys tokens fileids) :: strikes, s.Fits)
    (hwhole : Along (Machine.strike tc) (Machine.Whole tc) ⟨.new, dir⟩
      (.serve client (.setup version keys tokens fileids) :: strikes)) :
    ∃ m oks kept m₀ outs,
      Machine.strikes tc ⟨.new, dir⟩ (.serve client (.setup version keys tokens fileids) :: strikes) =
        .ok (m, oks) ∧
      (∀ ok ∈ oks, ok = true) ∧
      List.Forall₂ Strike.Keeps (.serve client (.setup version keys tokens fileids) :: strikes) kept ∧
      Machine.run tc ⟨.new, dir⟩ kept.flatten = .ok (m₀, outs) ∧ Restored m₀.core m.core ∧
      ∀ client' w,
        NoCollision tc ((.serve client (.setup version keys tokens fileids) :: strikes).flatMap
          (Strike.setupCalls tc) ++ Pair.searchCalls tc ⟨client', m₀.core⟩ w) →
        searchServer tc m.core (searchClient tc client' w) =
          searchServer tc m₀.core (searchClient tc client' w) := by
  let first : Strike := .serve client (.setup version keys tokens fileids)
  let log := (first :: strikes).flatMap (Strike.setupCalls tc)
  have hlog : setupCalls tc version keys tokens fileids ++ strikes.flatMap (Strike.setupCalls tc) ⊆ log :=
    List.Subset.refl _
  rw [List.append_subset] at hlog
  let start : Machine := ⟨.new, dir⟩
  have hsame : start.core.Srev = start.core.Srev := rfl
  have hnew : ∀ r ∈ start.core.Srev, r.length = KEYLEN :=
    fun r hr => absurd hr ExtTreeSet.not_mem_empty
  obtain ⟨m₁, n₁, hm, hn, h⟩ :=
    Machine.serve_setup hsame hnew hsetup (hfits first List.mem_cons_self) hlog.1
  have hrun := Machine.run_call hsetup hn
  have hstrike : start.strike tc first = .ok (m₁, []) := by
    show (start.step tc _).map _ = _
    rw [Machine.step, hsetup]
    simp only [hm]
    rfl
  obtain ⟨-, hrest⟩ := hwhole
  rw [hstrike] at hrest
  obtain ⟨m, oks, kept, m₀, outs, hms, hoks, hkept, hns, h'⟩ :=
    h.strikes strikes (fun s hs => hfits s (List.mem_cons_of_mem _ hs)) hrest hlog.2
  refine ⟨m, oks, _ :: kept, m₀, .reply (some .empty) :: outs, ?_, hoks, .cons (.serve client _) hkept, ?_, h'.restored, ?_⟩
  · rw [Machine.strikes] at hms
    rw [Machine.strikes, runs_cons hstrike, hms]
    rfl
  · rw [Machine.run] at hrun hns
    rw [Machine.run, List.flatten_cons, runs_append hrun, hns]
    rfl
  · intro client' w hcoll
    exact h'.restored.searchServer (h'.indexes.mono (List.subset_append_left _ _)) hcoll
      (List.subset_append_right _ _)

def sampleKills : List Strike :=
  [.serve sampleClient (.add (fun _ _ => 0) 9 [[97]]), .stop,
    .crash sampleClient (.delete 1 [[97]]) 1, .crash sampleClient (.delete 2 [[97]]) 3]

theorem Machine.killed_sample :
    ∃ m oks kept m₀ outs, Machine.strikes standIn ⟨.new, fun _ => none⟩ (.serve .new
        (.setup Version.Basic.toInt sampleKeys [[97]] samplePostings) :: sampleKills) = .ok (m, oks) ∧
      List.Forall₂ Strike.Keeps (.serve .new
        (.setup Version.Basic.toInt sampleKeys [[97]] samplePostings) :: sampleKills) kept ∧
      Machine.run standIn ⟨.new, fun _ => none⟩ kept.flatten = .ok (m₀, outs) ∧
      Restored m₀.core m.core := by
  have hreq : (Op.request standIn .new
      (.setup Version.Basic.toInt sampleKeys [[97]] samplePostings)).isSome = true := by
    decide +kernel
  obtain ⟨req, hreq⟩ := Option.isSome_iff_exists.mp hreq
  have hids : postingsTotal samplePostings [[97]] < INVALID.toNat := by decide
  have hfits : ∀ s ∈ Strike.serve .new
      (.setup Version.Basic.toInt sampleKeys [[97]] samplePostings) :: sampleKills, s.Fits := by
    simpa [sampleKills, Strike.Fits, Turn.Fits] using hids
  -- no strike is one that `Whole` restricts
  have hwhole : Along (Machine.strike standIn) (Machine.Whole standIn) ⟨.new, fun _ => none⟩
      (.serve .new (.setup Version.Basic.toInt sampleKeys [[97]] samplePostings) :: sampleKills) := by
    refine Along.of_forall fun m s hs => ?_
    simp only [sampleKills, List.mem_cons, List.not_mem_nil, or_false] at hs
    rcases hs with rfl | rfl | rfl | rfl | rfl <;> trivial
  obtain ⟨m, oks, kept, m₀, outs, hm, -, hkept, hm₀, hr, -⟩ :=
    Machine.killed (fun _ => none) hreq hfits hwhole
  exact ⟨m, oks, kept, m₀, outs, hm, hkept, hm₀, hr⟩

/-- What the client finds under the words after the strikes. -/
def Strike.found (tc : Tomcrypt) (strikes : List Strike) (w : Bytes) : Except Halt (List UInt64) := do
  let (m, _) ← Machine.strikes tc ⟨.new, fun _ => none⟩ strikes
  searchServer tc m.core (searchClient tc sampleClient w)

/-- An Add that was replied to is lost if the process is killed before it saves. So are saved updates
    before the first Setup. A Setup cut inside its save, and an Add cut between `Dplus` and `Srev`,
    leave what no part of the run leaves. -/
theorem Machine.killed_differs :
    let found := fun strikes w => (Strike.found standIn strikes w).toOption
    let add := Op.add (fun _ _ => 0) 1 [[97]]
    let empty := Strike.serve .new (.setup Version.Basic.toInt sampleKeys [] ∅)
    let update := Op.add (fun _ _ => 0) 1 [[97], [98]]
    let revoked := [empty, .serve sampleClient add, .serve sampleClient (.delete 1 [[97]])]
    let setup := Op.setup Version.Packed.toInt ⟨sampleKeys.kplus, sampleKeys.kminus, sampleKeys.key⟩
      [[97]] samplePostings
    let indexed := [.serve .new (.setup Version.Basic.toInt sampleKeys [[97]] samplePostings),
      .serve sampleClient (.add (fun _ _ => 0) 9 [[97]])]
    (found [empty, .crash sampleClient add 0] [97] = some [] ∧
      found [empty, .serve sampleClient add] [97] = some [1]) ∧
    (found [.serve sampleClient add, .stop] [97] = some [] ∧
      found [.serve sampleClient add] [97] = some [1]) ∧
    (found indexed [97] = some [1, 2, 3, 4, 5, 6, 7, 9] ∧
      found (indexed ++ [.serve .new setup]) [97] = some [] ∧
      ∀ writes ∈ [1, 2, 3], found (indexed ++ [.crash .new setup writes]) [97] ∈ [none, some [9]]) ∧
    (found revoked [98] = some [] ∧
      found (revoked ++ [.serve sampleClient update]) [97] = some [1] ∧
      found (revoked ++ [.crash sampleClient update 2]) [97] = some [] ∧
      found (revoked ++ [.crash sampleClient update 2]) [98] = some [1]) := by
  decide +kernel

end DSSE
