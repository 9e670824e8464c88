import DSSE.Sessions
import DSSE.Bookkeeping

/-! The flags that an add is answered with. AddServer pushes one for a pair that is revoked and one for a
    pair that it stores, and none for a pair whose label is taken; the client reads flag `i` as that of
    pair `i` without counting them. -/

namespace DSSE
open Schemes Std

/-! ### Flags of the server -/

/-- There is a flag for each pair: 1 if its revocation id was on the list when its turn came, which takes
    it off the list, and 0 otherwise. -/
structure AnswersAll (core : Core) (L : List AddPair) : Prop where
  length : (addServer core L).2.length = L.length
  flag : ∀ i q, L[i]? = some q → (addServer core L).2[i]? =
    some (if q.RevID ∈ (addServer core (L.take i)).1.Srev then 1 else 0)
  removed : ∀ i q, L[i]? = some q → q.RevID ∉ (addServer core (L.take (i + 1))).1.Srev

/-- Pair `i` takes a revocation back: no pair before it has done so. -/
def Redeems (core : Core) (L : List AddPair) (i : ℕ) (q : AddPair) : Prop :=
  q.RevID ∈ core.Srev ∧ ∀ p ∈ L.take i, p.RevID ≠ q.RevID

/-- The label of every pair that takes no revocation back is neither stored nor that of such a pair before
    it. -/
def LabelsFree (core : Core) (L : List AddPair) : Prop :=
  ∀ i q, L[i]? = some q → ¬ Redeems core L i q → q.Token ∉ core.Dplus ∧
    ∀ j < i, ∀ p, L[j]? = some p → ¬ Redeems core L j p → p.Token ≠ q.Token

theorem redeems_iff (core : Core) (L : List AddPair) (i : ℕ) (q : AddPair) :
    Redeems core L i q ↔ q.RevID ∈ (addServer core (L.take i)).1.Srev :=
  (mem_srev_addServer (L.take i) q.RevID core).symm

theorem redeems_cons (core : Core) (q p : AddPair) (L : List AddPair) (j : ℕ) :
    Redeems core (q :: L) (j + 1) p ↔ Redeems (addServerPair core q).1 L j p := by
  rw [Redeems, Redeems, List.take_succ_cons, List.forall_mem_cons, mem_srev_addServerPair, and_assoc]

theorem redeems_take {core : Core} {L : List AddPair} {i j : ℕ} (h : j < i) (p : AddPair) :
    Redeems core (L.take i) j p ↔ Redeems core L j p := by
  rw [Redeems, Redeems, List.take_take, min_eq_left h.le]

/-- The labels stored are those from before and those of the pairs that take no revocation back. -/
theorem mem_dplus_addServer (t : Bytes) : ∀ (L : List AddPair) (core : Core),
    t ∈ (addServer core L).1.Dplus ↔ t ∈ core.Dplus ∨
      ∃ j p, L[j]? = some p ∧ ¬ Redeems core L j p ∧ p.Token = t := by
  intro L
  induction L with
  | nil => intro core; simp [addServer]
  | cons q L ih =>
    intro core
    have hpair : t ∈ (addServerPair core q).1.Dplus ↔
        t ∈ core.Dplus ∨ q.RevID ∉ core.Srev ∧ q.Token = t := by
      rcases addServerPair_cases core q with ⟨hrev, h⟩ | ⟨-, htaken, h⟩ | ⟨hrev, -, h⟩ <;> rw [h]
      · exact ⟨Or.inl, fun h => h.resolve_right fun h => h.1 hrev⟩
      · refine ⟨Or.inl, ?_⟩
        rintro (ht | ⟨-, rfl⟩)
        · exact ht
        · exact htaken
      · rw [ExtTreeMap.mem_insert, LawfulEqCmp.compare_eq_iff_eq, or_comm]
        exact or_congr_right (iff_and_self.mpr fun _ => hrev)
    have hfirst : Redeems core (q :: L) 0 q ↔ q.RevID ∈ core.Srev := by simp [Redeems]
    rw [addServer]
    simp only [ih, hpair]
    constructor
    · rintro ((ht | ⟨hrev, ht⟩) | ⟨j, p, hj, hnot, ht⟩)
      · exact Or.inl ht
      · exact Or.inr ⟨0, q, rfl, mt hfirst.mp hrev, ht⟩
      · exact Or.inr ⟨j + 1, p, hj, mt (redeems_cons core q p L j).mp hnot, ht⟩
    · rintro (ht | ⟨j, p, hj, hnot, ht⟩)
      · exact Or.inl (Or.inl ht)
      cases j with
      | zero =>
        obtain rfl : q = p := Option.some.inj hj
        exact Or.inl (Or.inr ⟨mt hfirst.mpr hnot, ht⟩)
      | succ j => exact Or.inr ⟨j, p, hj, mt (redeems_cons core q p L j).mpr hnot, ht⟩

/-- The warning comes for a pair exactly if, when its turn comes, its label is taken and its revocation id
    is not on the list. -/
theorem noWarning_iff : ∀ (L : List AddPair) (core : Core), NoWarning core L ↔
    ∀ i q, L[i]? = some q → q.RevID ∈ (addServer core (L.take i)).1.Srev ∨
      q.Token ∉ (addServer core (L.take i)).1.Dplus := by
  intro L
  induction L with
  | nil => intro core; simp [NoWarning]
  | cons q L ih =>
    intro core
    rw [NoWarning, ih]
    constructor
    · rintro ⟨hq, hrest⟩ i p hi
      cases i with
      | zero =>
        obtain rfl : q = p := Option.some.inj hi
        exact hq
      | succ i => exact hrest i p hi
    · exact fun h => ⟨h 0 q rfl, fun i p hi => h (i + 1) p hi⟩

theorem noWarning_iff_labelsFree (core : Core) (L : List AddPair) :
    NoWarning core L ↔ LabelsFree core L := by
  rw [noWarning_iff, LabelsFree]
  refine forall₃_congr fun i q hi => ?_
  rw [← redeems_iff, or_iff_not_imp_left, mem_dplus_addServer, not_or]
  refine forall_congr' fun _ => and_congr_right fun _ => ?_
  constructor
  · rintro h j hj p hp hnot ht
    exact h ⟨j, p, by rw [List.getElem?_take_of_lt hj, hp], mt (redeems_take hj p).mp hnot, ht⟩
  · rintro h ⟨j, p, hp, hnot, ht⟩
    have hj : j < i := by
      by_contra hge
      rw [List.getElem?_take_eq_none (Nat.le_of_not_lt hge)] at hp
      cases hp
    rw [List.getElem?_take_of_lt hj] at hp
    exact h j hj p hp (mt (redeems_take hj p).mpr hnot) ht

/-- A pair brings one flag, or none and the warning. -/
theorem length_addServerPair (core : Core) (q : AddPair) :
    (addServerPair core q).2.length ≤ 1 ∧ ((addServerPair core q).2.length = 1 ↔
      q.RevID ∈ core.Srev ∨ q.Token ∉ core.Dplus) := by
  rcases addServerPair_cases core q with ⟨hrev, h⟩ | ⟨hrev, htaken, h⟩ | ⟨-, hfree, h⟩ <;> rw [h]
  · simp [hrev]
  · simp [hrev, htaken]
  · simp [hfree]

theorem length_addServer_le : ∀ (L : List AddPair) (core : Core),
    (addServer core L).2.length ≤ L.length
  | [], _ => le_rfl
  | q :: L, core => by
    have hpair := (length_addServerPair core q).1
    have hrest := length_addServer_le L (addServerPair core q).1
    rw [addServer]
    simp only [List.length_append, List.length_cons]
    omega

/-- There are as many flags as pairs exactly if the warning never comes. -/
theorem length_addServer_iff : ∀ (L : List AddPair) (core : Core),
    (addServer core L).2.length = L.length ↔ NoWarning core L
  | [], _ => by simp [addServer, NoWarning]
  | q :: L, core => by
    have hpair := length_addServerPair core q
    have hle := length_addServer_le L (addServerPair core q).1
    rw [NoWarning, ← length_addServer_iff L, ← hpair.2, addServer]
    simp only [List.length_append, List.length_cons]
    omega

theorem addServer_flag : ∀ {L : List AddPair} {core : Core}, NoWarning core L → ∀ {i : ℕ}
    {q : AddPair}, L[i]? = some q → (addServer core L).2[i]? =
      some (if q.RevID ∈ (addServer core (L.take i)).1.Srev then 1 else 0) := by
  intro L
  induction L with
  | nil => rintro core - i q hi; simp at hi
  | cons q L ih =>
    rintro core ⟨hq, hrest⟩ i p hi
    have hflag : (addServerPair core q).2 = [if q.RevID ∈ core.Srev then 1 else 0] := by
      rcases addServerPair_cases core q with ⟨hrev, h⟩ | ⟨hrev, htaken, -⟩ | ⟨hrev, -, h⟩
      · rw [h, if_pos hrev]
      · exact absurd htaken (hq.resolve_left hrev)
      · rw [h, if_neg hrev]
    rw [addServer]
    simp only [hflag, List.singleton_append]
    cases i with
    | zero =>
      obtain rfl : q = p := Option.some.inj hi
      rfl
    | succ i => exact ih hrest hi

/-- AddServer answers every pair exactly if each pair that takes no revocation back has a label of its
    own, one that is not stored. -/
theorem addServer_answersAll_iff (core : Core) (L : List AddPair) :
    AnswersAll core L ↔ LabelsFree core L := by
  rw [← noWarning_iff_labelsFree]
  constructor
  · exact fun h => (length_addServer_iff L core).mp h.length
  · refine fun h => ⟨(length_addServer_iff L core).mpr h, fun i q => addServer_flag h,
      fun i q hi hmem => ?_⟩
    refine ((mem_srev_addServer _ _ _).mp hmem).2 q ?_ rfl
    exact List.mem_of_getElem? (i := i) (by rw [List.getElem?_take_of_lt i.lt_succ_self, hi])

/-- A word that is named twice: its two pairs have one label, and there is one flag. -/
theorem addServer_answers_once :
    (addClient standIn Core.new (fun _ _ => 0) 1 [[97], [97]]).2.1.length = 2 ∧
      (addServer Core.new (addClient standIn Core.new (fun _ _ => 0) 1 [[97], [97]]).2.1).2 = [0] ∧
      ¬ AnswersAll Core.new (addClient standIn Core.new (fun _ _ => 0) 1 [[97], [97]]).2.1 := by
  have hlen : (addClient standIn Core.new (fun _ _ => 0) 1 [[97], [97]]).2.1.length = 2 := by
    decide +kernel
  have hflags : (addServer Core.new
      (addClient standIn Core.new (fun _ _ => 0) 1 [[97], [97]]).2.1).2 = [0] := by
    decide +kernel
  refine ⟨hlen, hflags, fun h => ?_⟩
  have := h.length
  rw [hflags, hlen] at this
  cases this

/-! ### Replies at the client -/

namespace Msg

/-- `oneof msg` of a result, all its variants. -/
inductive AnyResultMsg where
  | setup
  | search (m : SearchResult)
  | add (m : AddResult)
  | delete

/-- A result as the client can receive it: every message of the type parses. -/
structure AnyResult where
  error : Option Bytes
  msg : Option AnyResultMsg

/-- `result.add().r()`, empty where the variant is another, as the client reads it. -/
def AnyResult.flags (result : AnyResult) : List UInt8 :=
  match result.msg with
  | some (.add m) => m.r.map fun x => if x then 1 else 0
  | _ => []

/-- A result that this server sends. -/
def Result.any : Result → AnyResult
  | ⟨.add m⟩ => ⟨none, some (.add m)⟩
  | ⟨.delete⟩ => ⟨none, some .delete⟩

theorem Result.flags_any (m : Result) : m.any.flags = resultFlags m := by
  obtain ⟨_ | _⟩ := m <;> rfl

end Msg

def Delivery.map {α β : Type} (f : α → β) : Delivery α → Delivery β
  | .unsent => .unsent
  | .unanswered => .unanswered
  | .answered reply => .answered (f reply)

/-- `Client::Add` and whatever arrives for it: neither the error nor the variant is looked at. -/
def Client.addReply (tc : Tomcrypt) (c : Client) (stack : Stack) (fileid : UInt64) (words : List Bytes)
    (d : Delivery Msg.AnyResult) : Except Halt (Client × Bool) :=
  c.addVia tc stack fileid words (d.map Msg.AnyResult.flags)

variable (tc : Tomcrypt)

/-- The method returns true, and then there was one flag for each pair and each flag 0 counts for the
    word at its place, or false, and then no counter has changed. -/
def Client.AddsWhole (c : Client) (stack : Stack) (fileid : UInt64) (words : List Bytes)
    (d : Delivery Msg.AnyResult) : Prop :=
  let (_, L, W) := addClient tc c.core stack fileid words
  match c.addReply tc stack fileid words d with
  | .ok (c', true) => ∃ m, d = .answered m ∧ m.flags.length = L.length ∧
      ∀ u, c'.core.count u = c.core.count u + UInt64.ofNat ((W.zip m.flags).count (u, 0))
  | .ok (c', false) => ∀ u, c'.core.count u = c.core.count u
  | .error _ => False

variable {tc}

/-- AddClient changes no key and no counter, and makes a pair for each word. -/
theorem addClient_counts {core core' : Core} {stack : Stack} {id : UInt64} {words : List Bytes}
    {L : List AddPair} {W : List Bytes} (h : addClient tc core stack id words = (core', L, W)) :
    core'.keys = core.keys ∧ (∀ u, core'.count u = core.count u) ∧ L.length = words.length ∧
      W.Perm words := by
  obtain ⟨hkeys, hcount, hwords, -⟩ := addTokenPairs_spec tc stack id words core 0
  rw [addClient] at h
  simp only [Prod.mk.injEq] at h
  obtain ⟨rfl, rfl, rfl⟩ := h
  have hperm : (sortTokenPairs (addTokenPairs tc stack id core 0 words).2).Perm
      (addTokenPairs tc stack id core 0 words).2 := List.perm_insertionSort _ _
  refine ⟨hkeys, hcount, ?_, (hperm.map _).trans (.of_eq hwords)⟩
  rw [List.length_map, hperm.length_eq, ← congrArg List.length hwords, List.length_map]

/-- An Add takes every reply whole exactly if each reply that parses has one flag for each word. -/
theorem Client.addsWhole_iff (tc : Tomcrypt) (c : Client) (stack : Stack) (fileid : UInt64)
    (words : List Bytes) (d : Delivery Msg.AnyResult) :
    c.AddsWhole tc stack fileid words d ↔ ∀ m, d = .answered m → m.flags.length = words.length := by
  obtain ⟨core, L, W, hadd⟩ : ∃ core L W, addClient tc c.core stack fileid words = (core, L, W) :=
    ⟨_, _, _, rfl⟩
  obtain ⟨-, hcount, hlen, hperm⟩ := addClient_counts hadd
  rw [Client.AddsWhole, Client.addReply, Client.addVia, hadd]
  cases d with
  | unsent => exact iff_of_true hcount (by rintro m ⟨⟩)
  | unanswered => exact iff_of_true hcount (by rintro m ⟨⟩)
  | answered m =>
    simp only [Delivery.map, Delivery.answered.injEq, forall_eq', hlen]
    constructor
    · intro h
      cases hadd₂ : addClient2 core m.flags W with
      | error e => rw [hadd₂] at h; exact h.elim
      | ok core₂ =>
        rw [hadd₂] at h
        obtain ⟨m', hm, hflags, -⟩ := h
        rw [hm, hflags]
    · intro h
      obtain ⟨core₂, hadd₂, -, hcount₂⟩ := addClient2_zip m.flags core W
        (by rw [h, hperm.length_eq])
      rw [hadd₂]
      exact ⟨m, rfl, h, fun u => by rw [hcount₂, hcount]⟩

/-- An empty result counts as an answer, and a flag too many is met after the counter has grown. -/
theorem Client.adds_in_part :
    (∃ c', Client.new.addReply standIn (fun _ _ => 0) 1 [[97]] (.answered ⟨none, none⟩) =
      .ok (c', true)) ∧
    ¬ Client.new.AddsWhole standIn (fun _ _ => 0) 1 [[97]] (.answered ⟨none, none⟩) ∧
    Client.new.addReply standIn (fun _ _ => 0) 1 [[97]]
      (.answered ⟨none, some (.add ⟨[false, false]⟩)⟩) = .error .throw ∧
    ¬ Client.new.AddsWhole standIn (fun _ _ => 0) 1 [[97]]
      (.answered ⟨none, some (.add ⟨[false, false]⟩)⟩) := by
  refine ⟨⟨_, rfl⟩, fun h => ?_, rfl, fun h => ?_⟩
  · exact absurd ((Client.addsWhole_iff ..).mp h _ rfl) (by decide)
  · exact absurd ((Client.addsWhole_iff ..).mp h _ rfl) (by decide)

end DSSE
