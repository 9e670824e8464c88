import DSSE.Service

/-! Requests from anybody, with any version of the protocol. The server searches in three layouts and
    exits with the fourth version; nothing but a Setup changes the version, and saving and loading keep
    it. -/

namespace DSSE
open Schemes Std

/-- A request is handled, or the server is stopped and started again. -/
inductive Visit where
  | request (req : Msg.Request)
  | restart

def Machine.visit (tc : Tomcrypt) (m : Machine) : Visit → Except Halt (Machine × List (Option Reply))
  | .request req => (m.serve tc req).map fun (m, reply) => (m, [reply])
  | .restart => .ok ((Machine.boot m.dir).2, [])

/-- A server that is started for the first time. -/
def Machine.fresh : Machine := ⟨.new, fun _ => none⟩

/-- The version is one that SearchServer knows. -/
def Core.Supported (core : Core) : Prop :=
  core.version = Version.Basic.toInt ∨ core.version = Version.Packed.toInt ∨
    core.version = Version.Pointer.toInt

/-- No Setup with the version that SearchServer does not know. -/
def Visit.Supported : Visit → Prop
  | .request req =>
    match req.msg with
    | some (.setup _) => req.getVersion ≠ .TwoLevelPointer
    | _ => True
  | .restart => True

variable {tc : Tomcrypt}

/-! ### Searches that do not exit -/

/-- The computation does not end in `exit(1)`. -/
def Stays {α : Type*} (x : Except Halt α) : Prop := x ≠ .error .exit

theorem Stays.bind {α β : Type} {x : Except Halt α} {f : α → Except Halt β} (hx : Stays x)
    (hf : ∀ a, Stays (f a)) : Stays (x >>= f) := by
  cases x with
  | error e => intro h; cases h; exact hx rfl
  | ok a => exact hf a

theorem Stays.ok {α : Type} (a : α) : Stays (.ok a) := by intro h; cases h

theorem stays_probe {find : ℕ → Option Bytes} {body : Bytes → Except Halt (List UInt64)}
    (hbody : ∀ d, Stays (body d)) : ∀ fuel c, Stays (probe find body .hang fuel c) := by
  intro fuel
  induction fuel with
  | zero => intro c h; cases h
  | succ fuel ih =>
    intro c
    rw [probe]
    cases find c with
    | none => exact .ok _
    | some d => exact (hbody d).bind fun _ => (ih (c + 1)).bind fun _ => .ok _

theorem stays_decryptBytes (key ctext : Bytes) (ctextlen outlen : ℕ) :
    Stays (decryptBytes tc key ctext ctextlen outlen) := by
  unfold decryptBytes
  split
  · intro h; cases h
  · exact .ok _

theorem stays_idEntry (core : Core) (K2 K1minus d : Bytes) : Stays (idEntry tc core K2 K1minus d) := by
  refine Stays.bind ?_ fun _ => .ok _
  rw [decryptLong]
  have h : Stays (decryptBytes tc K2 d ENCRYPTED_FILEID_SIZE 8) := stays_decryptBytes _ _ _ _
  cases hd : decryptBytes tc K2 d ENCRYPTED_FILEID_SIZE 8 with
  | error e => rw [hd] at h; intro he; cases he; exact h rfl
  | ok block => exact .ok _

theorem stays_blockIds (core : Core) (K1minus block : Bytes) : Stays (blockIds tc core K1minus block) := by
  have hword : ∀ i, Stays (readWord block i) := by
    intro i
    unfold readWord
    split
    · exact .ok _
    · intro h; cases h
  have hwords : ∀ is : List ℕ, Stays (is.mapM (readWord block)) := by
    intro is
    induction is with
    | nil => exact .ok _
    | cons i is ih =>
      rw [List.mapM_cons]
      exact (hword i).bind fun _ => ih.bind fun _ => .ok _
  exact (hwords _).bind fun _ => .ok _

theorem stays_packedEntry (core : Core) (K2 K1minus d : Bytes) :
    Stays (packedEntry tc core K2 K1minus d) :=
  (stays_decryptBytes _ _ _ _).bind fun _ => stays_blockIds _ _ _

theorem stays_followPointers (core : Core) (K2 K1minus block : Bytes) (is : List ℕ) :
    Stays (followPointers tc core K2 K1minus block is) := by
  induction is with
  | nil => exact .ok _
  | cons i is ih =>
    rw [followPointers]
    refine Stays.bind ?_ fun index => ?_
    · unfold readWord
      split
      · exact .ok _
      · intro h; cases h
    · split
      · exact .ok _
      · split
        · exact ih
        · exact (stays_decryptBytes _ _ _ _).bind fun _ => (stays_blockIds _ _ _).bind fun _ =>
            ih.bind fun _ => .ok _

theorem stays_pointerEntry (core : Core) (K2 K1minus d : Bytes) :
    Stays (pointerEntry tc core K2 K1minus d) :=
  (stays_decryptBytes _ _ _ _).bind fun _ => stays_followPointers _ _ _ _ _

theorem stays_searchLoops {entry : Core → Bytes → Bytes → Bytes → Except Halt (List UInt64)}
    (hentry : ∀ core K2 K1minus d, Stays (entry core K2 K1minus d)) (core : Core) (k : SearchKeys) :
    Stays (searchLoops tc entry core k) :=
  (stays_probe (fun d => hentry core _ _ d) _ _).bind fun _ =>
    (stays_probe (fun d => stays_idEntry core _ _ d) _ _).bind fun _ => .ok _

/-- A search exits exactly with a version that is not supported. -/
theorem searchServer_exit_iff (core : Core) (k : SearchKeys) :
    searchServer tc core k = .error .exit ↔ ¬ core.Supported := by
  unfold searchServer Core.Supported
  split_ifs with hbasic hpacked hpointer
  · exact iff_of_false (stays_searchLoops stays_idEntry core k) (by simp [hbasic])
  · exact iff_of_false (stays_searchLoops stays_packedEntry core k) (by simp [hpacked])
  · exact iff_of_false (stays_searchLoops stays_pointerEntry core k) (by simp [hpointer])
  · simp [hbasic, hpacked, hpointer]

/-! ### Runs -/

/-- The server works in a supported version, and so will one started on its directory. -/
structure Machine.Supported (m : Machine) : Prop where
  core : m.core.Supported
  file : m.dir .version = none ∨ ∃ v : Version, v ≠ .TwoLevelPointer ∧
    m.dir .version = some (writeInt v.toInt)

theorem Core.supported_iff_version (core : Core) :
    core.Supported ↔ ∃ v : Version, v ≠ .TwoLevelPointer ∧ core.version = v.toInt := by
  constructor
  · rintro (h | h | h)
    · exact ⟨.Basic, by simp, h⟩
    · exact ⟨.Packed, by simp, h⟩
    · exact ⟨.Pointer, by simp, h⟩
  · rintro ⟨v, hv, h⟩
    cases v with
    | Basic => exact Or.inl h
    | Packed => exact Or.inr (Or.inl h)
    | Pointer => exact Or.inr (Or.inr h)
    | TwoLevelPointer => exact absurd rfl hv

/-- Whatever the other files hold, the version loaded is the one on disk. -/
theorem loadServer_version (core : Core) (dir : Dir) :
    (loadServer core dir).2.version = (readInt (dir .version) core.version).2 := by
  rw [loadServer_eq]

theorem Machine.Supported.boot {m : Machine} (h : m.Supported) : (Machine.boot m.dir).2.Supported := by
  refine ⟨?_, h.file⟩
  show (loadServer Core.new m.dir).2.Supported
  rw [Core.supported_iff_version, loadServer_version]
  rcases h.file with hnone | ⟨v, hv, hsome⟩
  · rw [hnone]
    exact ⟨.Basic, by simp, rfl⟩
  · rw [hsome, v.readInt_writeInt]
    exact ⟨v, hv, rfl⟩

/-- The version file after a save. -/
theorem saveServer_version (core : Core) (dir : Dir) :
    (saveServer core dir).2 .version = some (writeInt core.version) := by
  rw [saveServer, saveWrites]
  cases core.dirtyD <;> simp [Dir.write, Function.update]

theorem Machine.Supported.save {core : Core} (h : core.Supported) (dir : Dir) :
    (Machine.mk (saveServer core dir).1 (saveServer core dir).2).Supported := by
  refine ⟨h, Or.inr ?_⟩
  obtain ⟨v, hv, hcore⟩ := core.supported_iff_version.mp h
  refine ⟨v, hv, ?_⟩
  rw [← hcore]
  exact saveServer_version core dir

/-- A handler changes the version only in a Setup. -/
theorem handleMessage_version {core core' : Core} {req : Msg.Request} {reply : Option Reply}
    (h : handleMessage tc core req = .ok (core', reply)) :
    core'.version = match req.msg with
      | some (.setup _) => req.getVersion.toInt
      | _ => core.version := by
  unfold handleMessage at h
  cases hm : req.msg with
  | none => rw [hm] at h; cases h; rfl
  | some msg =>
    rw [hm] at h
    cases msg with
    | setup m => cases h; rfl
    | search m =>
      obtain ⟨r, -, heq⟩ := exists_of_map_ok h
      cases heq
      rfl
    | add m => cases h; exact (addServer_sameIndex _ core).1.version
    | delete m => cases h; rfl

theorem Machine.Supported.visit {m m' : Machine} {visit : Visit} {out : List (Option Reply)}
    (h : m.Supported) (hv : visit.Supported) (hstep : m.visit tc visit = .ok (m', out)) :
    m'.Supported := by
  cases visit with
  | restart => cases hstep; exact h.boot
  | request req =>
    rw [Machine.visit, Machine.serve_eq] at hstep
    obtain ⟨⟨m₁, reply⟩, hserve, heq⟩ := exists_of_map_ok hstep
    cases heq
    obtain ⟨⟨core, reply'⟩, hhandle, heq⟩ := exists_of_map_ok hserve
    cases heq
    have hcore : core.Supported := by
      have hversion := handleMessage_version hhandle
      rw [Core.supported_iff_version, hversion]
      rw [Visit.Supported] at hv
      split at hv
      · exact ⟨_, hv, rfl⟩
      · exact (Core.supported_iff_version _).mp h.core
    show (m.after req core).Supported
    unfold Machine.after
    split
    · exact ⟨hcore, h.file⟩
    · exact .save hcore m.dir

/-- A Setup with another version takes effect. -/
theorem Machine.visit_unsupported {m : Machine} {visit : Visit} (h : ¬ visit.Supported) :
    ∃ m' out, m.visit tc visit = .ok (m', out) ∧ ¬ m'.core.Supported := by
  cases visit with
  | restart => exact absurd trivial h
  | request req =>
    rw [Visit.Supported] at h
    split at h
    · rename_i msg hmsg
      have hversion : req.getVersion = .TwoLevelPointer := not_not.mp h
      have hhandle : handleMessage tc m.core req =
          .ok ((handleSetup m.core req msg).1, some (handleSetup m.core req msg).2) := by
        unfold handleMessage
        rw [hmsg]
      refine ⟨m.after req (handleSetup m.core req msg).1, [some .empty], ?_, ?_⟩
      · rw [Machine.visit, Machine.serve_eq, hhandle]
        rfl
      · rw [Machine.after, hmsg]
        show ¬ Core.Supported { setupServer req.getVersion.toInt m.core _ msg.M with dirtyD := false }
        rw [hversion]
        rintro (h | h | h) <;> cases h
    · exact absurd trivial h

/-- Every state that a server reaches is one in which no search exits, exactly if no Setup of the run
    carries the version that SearchServer does not know. -/
theorem Machine.supported_iff (visits : List Visit) :
    (∀ m ∈ states (Machine.visit tc) Machine.fresh visits,
      m.core.Supported ∧ ∀ k, searchServer tc m.core k ≠ .error .exit) ↔
    Along (Machine.visit tc) (fun _ visit => visit.Supported) Machine.fresh visits := by
  have hfresh : Machine.fresh.Supported := ⟨Or.inl rfl, Or.inl rfl⟩
  refine states_iff ?_ (fun m visit m' out h hv hstep => h.visit hv hstep) ?_ visits _ hfresh
  · intro m h
    exact ⟨h.core, fun k hexit => (searchServer_exit_iff m.core k).mp hexit h.core⟩
  · intro m visit _ hv
    obtain ⟨m', out, hstep, hbad⟩ : ∃ m' out, m.visit tc visit = .ok (m', out) ∧ ¬ m'.core.Supported :=
      Machine.visit_unsupported hv
    exact ⟨m', out, hstep, fun h => hbad h.1⟩

/-- An empty Setup with version 3 and then, after a restart, a search with any keys of length 32. -/
theorem Machine.unsupported_reached :
    let setup : Msg.Request := ⟨some (.setup ⟨[], []⟩), some .TwoLevelPointer⟩
    let key := List.replicate KEYLEN 0
    ∃ m ∈ states (Machine.visit standIn) Machine.fresh [.request setup, .restart],
      m.core.version = 3 ∧
        m.visit standIn (.request ⟨some (.search ⟨key, key, key, key, key⟩), none⟩) =
          .error .exit := by
  refine ⟨_, List.mem_cons_of_mem _ (List.mem_cons_of_mem _ List.mem_cons_self), ?_, ?_⟩
  · decide +kernel
  · rfl

end DSSE
