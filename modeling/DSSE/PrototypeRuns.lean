import DSSE.Prototype
import DSSE.Index
import DSSE.PlainIndex

/-! Runs of the prototype. Its client sorts the words of an add on their own and counts the flags, which
    come in label order, for the words in that order. As long as the words that are on the revocation list
    stand at the same places in both orders, the object keeps a plain index: nothing is raised, and a
    search gives what the plain index gives. -/

namespace DSSE
open Schemes Std

namespace Prototype

/-- `dict` keeps the lists `E` under labels derived with `key`, each computed in `log`. -/
structure Filed (tc : Tomcrypt) (log : List MacCall) (key : Bytes) (dict : Dmap)
    (E : Bytes → List Bytes) : Prop where
  stores : Stores (fun l => dict[l]?) (fun w c => derived tc key w (str c)) E
  logged : ∀ w c, c < (E w).length → derivedCalls tc key w (str c) ⊆ log

/-- The plain index that the object keeps, the client's counters apart. -/
structure Tracks (tc : Tomcrypt) (log : List MacCall) (s : Prototype) (ix : PlainIndex Bytes Bytes) :
    Prop where
  base : Filed tc log s.K s.D ix.base
  added : Filed tc log s.Kplus s.Dplus ix.added
  srev : ∀ r, r ∈ s.Srev ↔ ∃ q ∈ ix.revoked, derived tc s.Kminus q.1 q.2 = r
  revoked : ∀ q ∈ ix.revoked, derivedCalls tc s.Kminus q.1 q.2 ⊆ log

/-- The plain index that the object keeps. -/
structure Keeps (tc : Tomcrypt) (log : List MacCall) (s : Prototype) (ix : PlainIndex Bytes Bytes) : Prop
    extends Tracks tc log s ix where
  counts : ∀ w, s.count w = (ix.added w).length

/-- The words of an add in the order of their tuples: that of the flags. -/
def labelOrder (tc : Tomcrypt) (s : Prototype) (id : Bytes) (W : List Bytes) : List Bytes :=
  W.insertionSort fun a b => entryLE (addEntry tc s id a) (addEntry tc s id b)

/-- The words that are on the revocation list stand at the same places in both orders of an add. -/
def Aligned (tc : Tomcrypt) (s : Prototype) : Call → Prop
  | .update .add id W | .update .editPlus id W =>
    (labelOrder tc s id W).map (fun w => s.Srev.contains (revId tc s id w)) =
      (sortStrings W).map fun w => s.Srev.contains (revId tc s id w)
  | _ => True

instance (tc : Tomcrypt) (s : Prototype) : DecidablePred (Aligned tc s)
  | .update .add _ _ | .update .editPlus _ _ => inferInstanceAs (Decidable (_ = _))
  | .update .del _ _ | .update .editMinus _ _ | .update .other _ _ | .search _ =>
    inferInstanceAs (Decidable True)

variable {tc : Tomcrypt} {log : List MacCall} {key : Bytes} {dict : Dmap} {E : Bytes → List Bytes}

/-! ### One dictionary -/

theorem filed_empty (tc : Tomcrypt) (log : List MacCall) (key : Bytes) :
    Filed tc log key ∅ fun _ => [] where
  stores := stores_emptyDict _
  logged _ _ h := absurd h (Nat.not_lt_zero _)

/-- A label that was computed in `log` is not that of another item. -/
theorem Filed.apart (h : Filed tc log key dict E) (hn : NoCollision tc log) {w : Bytes} {c : ℕ}
    (hlog : derivedCalls tc key w (str c) ⊆ log) :
    Apart (fun w c => derived tc key w (str c)) E w c := by
  intro w' c' hc' hl
  obtain ⟨rfl, hx⟩ := derived_inj hn (h.logged w' c' hc') hlog hl
  exact ⟨rfl, str_inj hx⟩

/-- One more id under the next label of its word. -/
theorem Filed.insert (h : Filed tc log key dict E) (hn : NoCollision tc log) {w : Bytes}
    (hlog : derivedCalls tc key w (str (E w).length) ⊆ log) (d : Bytes) :
    Filed tc log key (dict.insert (derived tc key w (str (E w).length)) d)
      (Function.update E w (E w ++ [d])) where
  stores := stores_insert h.stores (h.apart hn hlog) d
  logged u c hc := by
    rcases eq_or_ne u w with rfl | hu
    · rw [Function.update_self, List.length_append, List.length_singleton] at hc
      rcases Nat.lt_succ_iff_lt_or_eq.mp hc with hlt | rfl
      · exact h.logged u c hlt
      · exact hlog
    · rw [Function.update_of_ne hu] at hc; exact h.logged u c hc

/-- What a loop of a search meets is the list of its word. -/
theorem Filed.read (h : Filed tc log key dict E) (hn : NoCollision tc log) {fuel : ℕ} {w : Bytes}
    (hfuel : (E w).length < fuel) (hkey : (key, 0x31 :: w) ∈ log)
    (hlog : loopCalls tc fuel dict (mac tc key (0x31 :: w)) ⊆ log) :
    Run (fun c => dict[mac tc (mac tc key (0x31 :: w)) (str c)]?) 0 (E w) := by
  have hhit : ∀ (i : ℕ) d, (E w)[i]? = some d →
      dict[mac tc (mac tc key (0x31 :: w)) (str (0 + i))]? = some d := by
    intro i d hd
    rw [Nat.zero_add]
    exact h.stores.hit w i d hd
  have hend : derivedCalls tc key w (str (E w).length) ⊆ log := by
    have hprobed :=
      mem_probed (fun c => dict[mac tc (mac tc key (0x31 :: w)) (str c)]?) hhit hfuel le_rfl
    rw [Nat.zero_add] at hprobed
    intro call hcall
    rcases List.mem_cons.mp hcall with rfl | hcall
    · exact hkey
    · rw [List.mem_singleton.mp hcall]
      exact hlog (List.mem_map.mpr ⟨_, hprobed, rfl⟩)
  have hmiss := h.stores.find_label (h.apart hn hend)
  rw [List.getElem?_eq_none le_rfl] at hmiss
  exact ⟨hhit, by rw [Nat.zero_add]; exact hmiss⟩

/-- A loop of a search gives the list of its word without the ids whose revocation id is listed. -/
theorem Filed.searchLoop (h : Filed tc log key dict E) (hn : NoCollision tc log) {fuel : ℕ} {w : Bytes}
    (hfuel : (E w).length < fuel) (hkey : (key, 0x31 :: w) ∈ log)
    (hlog : loopCalls tc fuel dict (mac tc key (0x31 :: w)) ⊆ log) (Srev : Revlist)
    (K2 K1minus : Bytes) :
    Prototype.searchLoop tc fuel Srev dict (mac tc key (0x31 :: w)) K2 K1minus =
      .ok ((E w).filter fun id => mac tc K1minus id ∉ Srev) := by
  have hsingle : List.Forall₂ (fun d out => (Except.ok [d] : Except Raised (List Bytes)) = .ok out)
      (E w) ((E w).map fun d => [d]) :=
    List.forall₂_map_right_iff.mpr (List.forall₂_same.mpr fun _ _ => rfl)
  have hall : probe (fun c => dict[mac tc (mac tc key (0x31 :: w)) (str c)]?)
      (fun d => (.ok [d] : Except Raised (List Bytes))) .hang fuel 0 = .ok (E w) := by
    rw [probe_run (h.read hn hfuel hkey hlog) hfuel hsingle, ← List.flatMap_def, List.flatMap_singleton']
  have hfilters : ∀ d, (Except.ok (if Srev.contains (mac tc K1minus (dec K2 d)) then [] else
      [dec K2 d]) : Except Raised (List Bytes)) =
        (Except.ok [d]).map (List.filter fun id => decide (mac tc K1minus id ∉ Srev)) := by
    intro d
    by_cases h : mac tc K1minus d ∈ Srev <;> simp [dec, h, Except.map, ExtTreeSet.contains_iff_mem]
  rw [Prototype.searchLoop, probe_filter hfilters, hall]
  rfl

variable {s : Prototype} {ix : PlainIndex Bytes Bytes} {fuel : ℕ}

/-! ### Search -/

/-- The lists of a plain index are shorter than the fuel. -/
def Short (fuel : ℕ) (ix : PlainIndex Bytes Bytes) : Prop :=
  ∀ w, (ix.base w).length < fuel ∧ (ix.added w).length < fuel

theorem Tracks.mem_srev (hs : Tracks tc log s ix) (hn : NoCollision tc log) {w id : Bytes}
    (hlog : derivedCalls tc s.Kminus w id ⊆ log) :
    revId tc s id w ∈ s.Srev ↔ (w, id) ∈ ix.revoked := by
  rw [hs.srev]
  constructor
  · rintro ⟨⟨u, i⟩, hq, he⟩
    obtain ⟨rfl, rfl⟩ := derived_inj hn (hs.revoked _ hq) hlog he
    exact hq
  · rintro hq
    exact ⟨(w, id), hq, rfl⟩

/-- The result of a search is made of both lists, whatever the revocation list is. -/
theorem Tracks.searchClient (hs : Tracks tc log s ix) (hn : NoCollision tc log) (hshort : Short fuel ix)
    {w : Bytes} (hlog : searchCalls tc fuel s w ⊆ log) (Srev : Revlist) :
    Prototype.searchClient tc fuel { s with Srev := Srev } w =
      .ok ((ix.base w ++ ix.added w).filter fun id => mac tc (mac tc s.Kminus (0x31 :: w)) id ∉ Srev) := by
  have hkeys : [(s.K, 0x31 :: w), (s.K, 0x32 :: w), (s.Kplus, 0x31 :: w), (s.Kplus, 0x32 :: w),
      (s.Kminus, 0x31 :: w)] ⊆ log := fun c hc =>
    hlog (by simp only [searchCalls, List.append_assoc]; exact List.mem_append_left _ hc)
  have hD : loopCalls tc fuel s.D (mac tc s.K (0x31 :: w)) ⊆ log := fun c hc =>
    hlog (List.mem_append_left _ (List.mem_append_left _ (List.mem_append_right _ hc)))
  have hDplus : loopCalls tc fuel s.Dplus (mac tc s.Kplus (0x31 :: w)) ⊆ log := fun c hc =>
    hlog (List.mem_append_left _ (List.mem_append_right _ hc))
  rw [Prototype.searchClient, searchServer]
  simp only [searchKeys]
  rw [hs.base.searchLoop hn (hshort w).1 (hkeys (by simp)) hD,
    hs.added.searchLoop hn (hshort w).2 (hkeys (by simp)) hDplus, List.filter_append]
  rfl

/-- A search gives what the plain index gives. -/
theorem Tracks.search (hs : Tracks tc log s ix) (hn : NoCollision tc log) (hshort : Short fuel ix)
    {w : Bytes} (hlog : searchCalls tc fuel s w ⊆ log) :
    Prototype.searchClient tc fuel s w = .ok (ix.search w) := by
  have hboth := hs.searchClient hn hshort hlog
  have hall : Prototype.searchClient tc fuel { s with Srev := ∅ } w =
      .ok (ix.base w ++ ix.added w) := by
    rw [hboth ∅, List.filter_eq_self.mpr fun id _ => by simp]
  rw [show s = { s with Srev := s.Srev } from rfl, hboth s.Srev, PlainIndex.search]
  congr 1
  refine List.filter_congr fun id hid => ?_
  -- the revocation id of every id of the word is computed
  have hrev : derivedCalls tc s.Kminus w id ⊆ log := by
    intro call hcall
    rcases List.mem_cons.mp hcall with rfl | hcall
    · exact hlog (by simp [searchCalls])
    · rw [List.mem_singleton.mp hcall]
      refine hlog (List.mem_append_right _ ?_)
      rw [hall]
      exact List.mem_map.mpr ⟨id, hid, rfl⟩
  exact decide_eq_decide.mpr (not_congr (hs.mem_srev hn hrev))

/-! ### Add -/

/-- The flag of a word. -/
def flag (ix : PlainIndex Bytes Bytes) (id w : Bytes) : ℕ := if (w, id) ∈ ix.revoked then 1 else 0

theorem derivedCalls_subset_addCalls (tc : Tomcrypt) (s : Prototype) (id : Bytes) {W : List Bytes}
    {w : Bytes} (hw : w ∈ W) :
    derivedCalls tc s.Kplus w (str (s.count w)) ⊆ addCalls tc s id W ∧
      derivedCalls tc s.Kminus w id ⊆ addCalls tc s id W := by
  constructor <;> intro call hcall <;> refine List.mem_flatMap.mpr ⟨w, hw, ?_⟩ <;>
    rcases List.mem_cons.mp hcall with rfl | hcall
  · simp
  · rw [List.mem_singleton.mp hcall]; simp
  · simp
  · rw [List.mem_singleton.mp hcall]; simp

/-- The pair of a word is revoked: the server takes the revocation back. -/
theorem Tracks.takeBack (hs : Tracks tc log s ix) (hn : NoCollision tc log) {w id : Bytes}
    (hlog : derivedCalls tc s.Kminus w id ⊆ log) (hrev : (w, id) ∈ ix.revoked) :
    Tracks tc log { s with Srev := s.Srev.erase (revId tc s id w) } (ix.addWord id w) := by
  have hix : ix.addWord id w = { ix with revoked := ix.revoked.erase (w, id) } := if_pos hrev
  rw [hix]
  refine ⟨hs.base, hs.added, fun r => ?_, fun q hq => hs.revoked q (Finset.mem_of_mem_erase hq)⟩
  simp only [ExtTreeSet.mem_erase, hs.srev, Finset.mem_erase]
  constructor
  · rintro ⟨hne, q, hq, rfl⟩
    refine ⟨q, ⟨?_, hq⟩, rfl⟩
    rintro rfl
    exact hne (LawfulEqCmp.compare_eq_iff_eq.mpr rfl)
  · rintro ⟨q, ⟨hne, hq⟩, rfl⟩
    refine ⟨fun he => hne ?_, q, hq, rfl⟩
    obtain ⟨h1, h2⟩ := derived_inj hn (hs.revoked q hq) hlog
      (LawfulEqCmp.compare_eq_iff_eq.mp he).symm
    exact Prod.ext h1 h2

/-- The pair of a word is not revoked and its count is right: its label is free, and the server stores
    the id under it. -/
theorem Tracks.store (hs : Tracks tc log s ix) (hn : NoCollision tc log) {w id : Bytes}
    (hcount : s.count w = (ix.added w).length)
    (hlog : derivedCalls tc s.Kplus w (str (s.count w)) ⊆ log) (hrev : (w, id) ∉ ix.revoked) :
    (addEntry tc s id w).Token ∉ s.Dplus ∧
      Tracks tc log { s with Dplus := s.Dplus.insert (addEntry tc s id w).Token id }
        (ix.addWord id w) := by
  have htoken : (addEntry tc s id w).Token = derived tc s.Kplus w (str (ix.added w).length) := by
    rw [← hcount]; rfl
  rw [hcount] at hlog
  have hix : ix.addWord id w =
      { ix with added := Function.update ix.added w (ix.added w ++ [id]) } := if_neg hrev
  rw [hix, htoken]
  refine ⟨?_, hs.base, hs.added.insert hn hlog id, hs.srev, hs.revoked⟩
  have hfree := hs.added.stores.find_label (hs.added.apart hn hlog)
  rw [List.getElem?_eq_none le_rfl] at hfree
  rw [← ExtTreeMap.contains_iff_mem, ExtTreeMap.contains_eq_isSome_getElem?, hfree]
  exact Bool.false_ne_true

/-- The server's loop over the tuples of different words: each tuple moves the plain index by its word,
    and no label is taken. -/
theorem Tracks.updateServerAdd (hn : NoCollision tc log) {id : Bytes} : ∀ (ws : List Bytes)
    {s : Prototype} {ix : PlainIndex Bytes Bytes}, Tracks tc log s ix → ws.Nodup →
    (∀ w ∈ ws, s.count w = (ix.added w).length) →
    (∀ w ∈ ws, derivedCalls tc s.Kplus w (str (s.count w)) ⊆ log ∧
      derivedCalls tc s.Kminus w id ⊆ log) →
    ∃ s', Prototype.updateServerAdd s (ws.map (addEntry tc s id)) = .ok (s', ws.map (flag ix id)) ∧
      s'.Dcount = s.Dcount ∧ Tracks tc log s' (ix.add id ws)
  | [], s, ix, hs, _, _, _ => ⟨s, rfl, rfl, hs⟩
  | w :: ws, s, ix, hs, hnodup, hcounts, hlog => by
    obtain ⟨hw, hnodup⟩ := List.nodup_cons.mp hnodup
    obtain ⟨htoken, hrevid⟩ := hlog w List.mem_cons_self
    have hne : ∀ u ∈ ws, u ≠ w := fun u hu h => hw (h ▸ hu)
    -- the words that follow are other words: their flags and counts are still those of `ix`
    have hflags : ws.map (flag (ix.addWord id w) id) = ws.map (flag ix id) := by
      refine List.map_congr_left fun u hu => ?_
      simp only [flag, PlainIndex.mem_revoked_addWord, ne_eq, Prod.mk.injEq, hne u hu,
        not_false_eq_true, and_true]
    have hadded : ∀ u ∈ ws, s.count u = ((ix.addWord id w).added u).length := by
      intro u hu
      rw [PlainIndex.addWord_added, if_neg fun h => hne u hu h.1]
      exact hcounts u (List.mem_cons_of_mem _ hu)
    have hrest := fun u hu => hlog u (List.mem_cons_of_mem w hu)
    have hmem : (addEntry tc s id w).RevID ∈ s.Srev ↔ (w, id) ∈ ix.revoked := hs.mem_srev hn hrevid
    rw [List.map_cons, Prototype.updateServerAdd, PlainIndex.add_cons, List.map_cons, ← hflags]
    by_cases hrev : (w, id) ∈ ix.revoked
    · rw [if_pos (ExtTreeSet.contains_iff_mem.mpr (hmem.mpr hrev)), flag, if_pos hrev]
      obtain ⟨s', hserver, hDcount, hs'⟩ :=
        Tracks.updateServerAdd hn ws (hs.takeBack hn hrevid hrev) hnodup hadded hrest
      exact ⟨s', congrArg (· >>= _) hserver, hDcount, hs'⟩
    · obtain ⟨hfree, hstored⟩ := hs.store hn (hcounts w List.mem_cons_self) htoken hrev
      rw [if_neg (mt ExtTreeSet.contains_iff_mem.mp (mt hmem.mp hrev)),
        if_neg (mt ExtTreeMap.contains_iff_mem.mp hfree), flag, if_neg hrev]
      obtain ⟨s', hserver, hDcount, hs'⟩ :=
        Tracks.updateServerAdd hn ws hstored hnodup hadded hrest
      exact ⟨s', congrArg (· >>= _) hserver, hDcount, hs'⟩

theorem count_bump (s : Prototype) (w u : Bytes) :
    (s.bump w).count u = if u = w then s.count w + 1 else s.count u := by
  simp only [count, bump, ExtTreeMap.getD_insert, LawfulEqCmp.compare_eq_iff_eq]
  exact if_congr eq_comm rfl rfl

/-- Counting flags touches the counts alone. -/
theorem Tracks.countFlags : ∀ (flags : List (ℕ × Bytes)) {s : Prototype}, Tracks tc log s ix →
    Tracks tc log (Prototype.countFlags s flags) ix
  | [], _, hs => hs
  | (ri, w) :: flags, s, hs => by
    have hbump : Tracks tc log (if ri = 0 then s.bump w else s) ix := by
      split
      · exact ⟨hs.base, hs.added, hs.srev, hs.revoked⟩
      · exact hs
    exact hbump.countFlags flags

/-- With the flags of the words themselves, the words with flag 0 are counted. -/
theorem count_countFlags (f : Bytes → ℕ) (u : Bytes) : ∀ (ws : List Bytes) (s : Prototype), ws.Nodup →
    (countFlags s ((ws.map f).zip ws)).count u = s.count u + if u ∈ ws ∧ f u = 0 then 1 else 0
  | [], s, _ => by simp [countFlags]
  | w :: ws, s, hnodup => by
    obtain ⟨hw, hnodup⟩ := List.nodup_cons.mp hnodup
    have ih := count_countFlags f u ws (if f w = 0 then s.bump w else s) hnodup
    rw [List.map_cons, List.zip_cons_cons, countFlags, List.foldl_cons]
    rw [countFlags] at ih
    rw [ih]
    by_cases hu : u = w
    · subst hu
      by_cases hf : f u = 0 <;> simp [hf, hw, count_bump]
    · by_cases hf : f w = 0 <;> simp [hf, hu, count_bump]

/-- An aligned add of different words moves the plain index; no assertion fails. -/
theorem Keeps.updateAdd (hk : Keeps tc log s ix) (hn : NoCollision tc log) {id : Bytes} {W : List Bytes}
    (hnodup : W.Nodup) (haligned : Aligned tc s (.update .add id W)) (hlog : addCalls tc s id W ⊆ log) :
    ∃ s', Prototype.updateAdd tc s id W = .ok s' ∧ Keeps tc log s' (ix.add id W) := by
  have hcalls : ∀ w ∈ W, derivedCalls tc s.Kplus w (str (s.count w)) ⊆ log ∧
      derivedCalls tc s.Kminus w id ⊆ log := fun w hw =>
    ⟨List.Subset.trans (derivedCalls_subset_addCalls tc s id hw).1 hlog,
      List.Subset.trans (derivedCalls_subset_addCalls tc s id hw).2 hlog⟩
  have hlabels : (labelOrder tc s id W).Perm W := List.perm_insertionSort _ W
  have hwords : (sortStrings W).Perm W := List.perm_insertionSort _ W
  have hentries : (W.map (addEntry tc s id)).insertionSort entryLE =
      (labelOrder tc s id W).map (addEntry tc s id) := by
    rw [labelOrder, List.map_insertionSort _ entryLE _ _ fun _ _ _ _ => Iff.rfl]
  obtain ⟨s', hserver, hDcount, hs'⟩ := hk.toTracks.updateServerAdd hn (labelOrder tc s id W)
    (hlabels.nodup_iff.mpr hnodup) (fun w _ => hk.counts w)
    fun w hw => hcalls w (hlabels.mem_iff.mp hw)
  -- the flags, in label order, are those of the words in the order the client uses
  have hflag : ∀ w ∈ W, flag ix id w = if s.Srev.contains (revId tc s id w) then 1 else 0 := by
    intro w hw
    simp only [flag, ExtTreeSet.contains_iff_mem, hk.mem_srev hn (hcalls w hw).2]
  have hflags : (labelOrder tc s id W).map (flag ix id) = (sortStrings W).map (flag ix id) := by
    rw [List.map_congr_left fun w hw => hflag w (hlabels.mem_iff.mp hw),
      List.map_congr_left fun w hw => hflag w (hwords.mem_iff.mp hw)]
    have := congrArg (List.map fun listed : Bool => if listed then 1 else 0) haligned
    rw [List.map_map, List.map_map] at this
    exact this
  rw [PlainIndex.add_perm hlabels] at hs'
  refine ⟨_, by rw [Prototype.updateAdd, hentries, hserver]; rfl, hs'.countFlags _, fun u => ?_⟩
  have hcount : s'.count u = (ix.added u).length := by
    rw [count, hDcount]; exact hk.counts u
  rw [hflags, count_countFlags _ _ _ _ (hwords.nodup_iff.mpr hnodup), hcount]
  simp only [hwords.mem_iff]
  by_cases hu : u ∈ W
  · rw [PlainIndex.add_added_of_mem id ix hnodup hu]
    by_cases hr : (u, id) ∈ ix.revoked <;> simp [flag, hu, hr]
  · rw [PlainIndex.add_added_of_notMem id ix hu, if_neg fun h => hu h.1, Nat.add_zero]

/-! ### Delete -/

theorem derivedCalls_subset_delCalls (tc : Tomcrypt) (s : Prototype) (id : Bytes) {W : List Bytes}
    {w : Bytes} (hw : w ∈ W) : derivedCalls tc s.Kminus w id ⊆ delCalls tc s id W :=
  fun _ hcall => List.mem_flatMap.mpr ⟨w, hw, hcall⟩

/-- A delete revokes its pairs in the plain index. -/
theorem Keeps.updateDel (hk : Keeps tc log s ix) {id : Bytes} {W : List Bytes}
    (hlog : delCalls tc s id W ⊆ log) :
    Keeps tc log (Prototype.updateDel tc s id W) (ix.delete id W) := by
  refine ⟨⟨hk.base, hk.added, fun r => ?_, fun q hq => ?_⟩, hk.counts⟩
  · simp only [Prototype.updateDel, updateServerDel, sortStrings, mem_foldl_insert,
      List.mem_insertionSort, List.mem_map, hk.srev, PlainIndex.mem_revoked_delete]
    constructor
    · rintro (⟨q, hq, rfl⟩ | ⟨w, hw, rfl⟩)
      · exact ⟨q, Or.inl hq, rfl⟩
      · exact ⟨(w, id), Or.inr ⟨hw, rfl⟩, rfl⟩
    · rintro ⟨q, hq | ⟨hq, hid⟩, rfl⟩
      · exact Or.inl ⟨q, hq, rfl⟩
      · exact Or.inr ⟨q.1, hq, by rw [hid]; rfl⟩
  · rcases (PlainIndex.mem_revoked_delete ix id W q).mp hq with hq | ⟨hq, hid⟩
    · exact hk.revoked q hq
    · rw [hid]
      exact List.Subset.trans (derivedCalls_subset_delCalls tc s id hq) hlog

/-! ### Setup -/

/-- What `setup` is given for a word. -/
def basePostings (tokens : List Bytes) (db : Db) (w : Bytes) : List Bytes :=
  if w ∈ tokens then db.getD w [] else []

theorem mem_tokenPairs {k w : Bytes} {ids : List Bytes} {p : SetupPair} :
    p ∈ tokenPairs tc k w ids ↔ ∃ c id, ids[c]? = some id ∧ p = ⟨derived tc k w (str c), id⟩ := by
  rw [tokenPairs, List.mem_map]
  constructor
  · rintro ⟨⟨id, c⟩, hmem, rfl⟩
    exact ⟨c, id, List.mem_zipIdx_iff_getElem?.mp hmem, rfl⟩
  · rintro ⟨c, id, hid, rfl⟩
    exact ⟨(id, c), List.mem_zipIdx_iff_getElem?.mpr hid, rfl⟩

theorem setupPairs_eq (tc : Tomcrypt) (k : Bytes) {db : Db} : ∀ {tokens : List Bytes},
    (∀ w ∈ tokens, w ∈ db) →
    setupPairs tc k db tokens = .ok (tokens.flatMap fun w => tokenPairs tc k w (db.getD w []))
  | [], _ => rfl
  | w :: tokens, h => by
    have ih := setupPairs_eq tc k fun u hu => h u (List.mem_cons_of_mem w hu)
    rw [setupPairs, dbAt, getElem?_of_posted (h w List.mem_cons_self), ih]
    rfl

theorem derivedCalls_subset_setupCalls (tc : Tomcrypt) (k : Bytes) {db : Db} {w : Bytes} {c : ℕ}
    (hc : c < (db.getD w []).length) : ∀ {tokens : List Bytes},
    (∀ u ∈ tokens, u ∈ db) → w ∈ tokens → derivedCalls tc k w (str c) ⊆ setupCalls tc k db tokens
  | u :: tokens, hdb, hw => by
    rw [setupCalls, getElem?_of_posted (hdb u List.mem_cons_self)]
    rcases List.mem_cons.mp hw with rfl | hw
    · intro call hcall
      rcases List.mem_cons.mp hcall with rfl | hcall
      · exact List.mem_cons_self
      · rw [List.mem_singleton.mp hcall]
        refine List.mem_cons_of_mem _ (List.mem_cons_of_mem _ (List.mem_append_left _ ?_))
        exact List.mem_map.mpr ⟨c, List.mem_range.mpr hc, rfl⟩
    · have ih := derivedCalls_subset_setupCalls tc k hc
        (fun v hv => hdb v (List.mem_cons_of_mem u hv)) hw
      exact fun call hcall =>
        List.mem_cons_of_mem _ (List.mem_cons_of_mem _ (List.mem_append_right _ (ih hcall)))

/-- The dictionary that `setup` makes keeps the lists it is given. -/
theorem filed_setup (hn : NoCollision tc log) {k : Bytes} {tokens : List Bytes} {db : Db}
    (hdb : ∀ w ∈ tokens, w ∈ db) (hlog : setupCalls tc k db tokens ⊆ log) :
    Filed tc log k
      (Prototype.dict (sortPairs (tokens.flatMap fun w => tokenPairs tc k w (db.getD w []))))
      (basePostings tokens db) := by
  have hmem : ∀ p, p ∈ sortPairs (tokens.flatMap fun w => tokenPairs tc k w (db.getD w [])) ↔
      ∃ w ∈ tokens, ∃ c id, (db.getD w [])[c]? = some id ∧ p = ⟨derived tc k w (str c), id⟩ := by
    intro p
    simp only [sortPairs, List.mem_insertionSort, List.mem_flatMap, mem_tokenPairs]
  have hlogged : ∀ w ∈ tokens, ∀ c < (db.getD w []).length, derivedCalls tc k w (str c) ⊆ log :=
    fun w hw c hc => List.Subset.trans (derivedCalls_subset_setupCalls tc k hc hdb hw) hlog
  have hword : ∀ {w : Bytes} {c : ℕ} {d : Bytes}, (basePostings tokens db w)[c]? = some d →
      w ∈ tokens ∧ (db.getD w [])[c]? = some d := by
    intro w c d hd
    rw [basePostings] at hd
    split at hd
    · rename_i hw
      exact ⟨hw, hd⟩
    · simp at hd
  refine ⟨⟨fun w c d hd => ?_, fun l d hd => ?_⟩, fun w c hc => ?_⟩
  · -- two tuples with this label are tuples of the same word and number, so they have the same id
    obtain ⟨hw, hd⟩ := hword hd
    have hsome : derived tc k w (str c) ∈ Prototype.dict _ :=
      foldl_insert_mem _ ∅ (Or.inr ⟨_, (hmem _).mpr ⟨w, hw, c, d, hd, rfl⟩, rfl⟩)
    obtain ⟨d', hd'⟩ := Option.isSome_iff_exists.mp (ExtTreeMap.mem_iff_isSome_getElem?.mp hsome)
    rcases foldl_insert_some _ ∅ hd' with h | ⟨p, hp, hl, rfl⟩
    · simp at h
    · obtain ⟨w', hw', c', id, hid, rfl⟩ := (hmem p).mp hp
      obtain ⟨rfl, hc⟩ := derived_inj hn (hlogged w' hw' c' (List.getElem?_eq_some_iff.mp hid).1)
        (hlogged w hw c (List.getElem?_eq_some_iff.mp hd).1) hl
      rw [str_inj hc, hd] at hid
      rw [hd']
      exact hid.symm
  · rcases foldl_insert_some _ ∅ hd with h | ⟨p, hp, rfl, rfl⟩
    · simp at h
    · obtain ⟨w, hw, c, id, hid, rfl⟩ := (hmem p).mp hp
      exact ⟨w, c, by rw [basePostings, if_pos hw]; exact hid, rfl⟩
  · obtain ⟨hw, hd⟩ := hword (List.getElem?_eq_getElem hc)
    exact hlogged w hw c (List.getElem?_eq_some_iff.mp hd).1

theorem Keeps.setup (hn : NoCollision tc log) (keys : Keys) {tokens : List Bytes} {db : Db}
    (hdb : ∀ w ∈ tokens, w ∈ db) (hlog : setupCalls tc keys.key db tokens ⊆ log) :
    ∃ s, Prototype.setup tc keys tokens db = .ok s ∧
      Keeps tc log s (.ofBase (basePostings tokens db)) := by
  refine ⟨_, by rw [Prototype.setup, setupPairs_eq tc keys.key hdb]; rfl, ⟨?_, ?_, ?_, ?_⟩, ?_⟩
  · exact filed_setup hn hdb hlog
  · exact filed_empty tc log keys.kplus
  · simp [PlainIndex.ofBase]
  · simp [PlainIndex.ofBase]
  · intro w
    simp [count, PlainIndex.ofBase]

/-! ### Runs -/

/-- A call in the clear. -/
def plainCall (ix : PlainIndex Bytes Bytes) : Call → PlainIndex Bytes Bytes
  | .update .add id W | .update .editPlus id W => ix.add id W
  | .update .del id W | .update .editMinus id W => ix.delete id W
  | .update .other _ _ | .search _ => ix

def plainFound (ix : PlainIndex Bytes Bytes) : Call → List (List Bytes)
  | .search w => [ix.search w]
  | _ => []

/-- A call with one of the four actions that adds no word twice. -/
def Call.Plain : Call → Prop
  | .update .add _ W | .update .editPlus _ W => W.Nodup
  | .update .other _ _ => False
  | _ => True

/-- A run in which every add is aligned. -/
def AlignedRun (tc : Tomcrypt) (fuel : ℕ) (keys : Keys) (tokens : List Bytes) (db : Db)
    (cs : List Call) : Prop :=
  match Prototype.setup tc keys tokens db with
  | .ok s => Along (step tc fuel) (Aligned tc) s cs
  | .error _ => True

instance (tc : Tomcrypt) (fuel : ℕ) (keys : Keys) (tokens : List Bytes) (db : Db) (cs : List Call) :
    Decidable (AlignedRun tc fuel keys tokens db cs) :=
  match h : Prototype.setup tc keys tokens db with
  | .ok s => decidable_of_iff (Along (step tc fuel) (Aligned tc) s cs) (by rw [AlignedRun, h])
  | .error _ => isTrue (by rw [AlignedRun, h]; trivial)

/-- The lists only grow along a run. -/
theorem Short.of_foldl : ∀ {cs : List Call} {ix : PlainIndex Bytes Bytes},
    Short fuel (cs.foldl plainCall ix) → Short fuel ix
  | [], _, h => h
  | call :: cs, ix, h => by
    have hnext : Short fuel (plainCall ix call) := Short.of_foldl h
    have hadd : ∀ id W, Short fuel (ix.add id W) → Short fuel ix := fun id W hs w => by
      have hw := hs w
      rw [PlainIndex.add_base] at hw
      exact ⟨hw.1, (PlainIndex.length_added_add_le id W ix w).trans_lt hw.2⟩
    match call, hnext with
    | .update .add id W, hnext | .update .editPlus id W, hnext => exact hadd id W hnext
    | .update .del _ _, hnext | .update .editMinus _ _, hnext => exact hnext
    | .update .other _ _, hnext | .search _, hnext => exact hnext

/-- Every aligned call moves the plain index and finds what it finds. -/
theorem Keeps.step (hk : Keeps tc log s ix) (hn : NoCollision tc log) {call : Call}
    (hcall : call.Plain ∧ Short fuel ix) (haligned : Aligned tc s call)
    (hlog : calls tc fuel s call ⊆ log) :
    Matches (Prototype.step tc fuel) plainCall plainFound (Keeps tc log) s ix call := by
  obtain ⟨hplain, hshort⟩ := hcall
  match call, hplain, haligned, hlog with
  | .update .add id W, hplain, haligned, hlog
  | .update .editPlus id W, hplain, haligned, hlog =>
    obtain ⟨s', hadd, hk'⟩ := hk.updateAdd hn hplain haligned hlog
    exact ⟨s', by rw [Prototype.step, updateClient, hadd]; rfl, hk'⟩
  | .update .del id W, _, _, hlog
  | .update .editMinus id W, _, _, hlog =>
    exact ⟨_, rfl, hk.updateDel hlog⟩
  | .update .other _ _, hplain, _, _ => exact hplain.elim
  | .search w, _, _, hlog =>
    exact ⟨s, by rw [Prototype.step, hk.search hn hshort hlog]; rfl, hk⟩

/-- An aligned run of the prototype simulates the plain index: nothing is raised, and the searches give
    the plain results. -/
theorem run_plain (tc : Tomcrypt) {fuel : ℕ} (keys : Keys) {tokens : List Bytes} {db : Db}
    {cs : List Call} (hdb : ∀ w ∈ tokens, w ∈ db) (hplain : ∀ call ∈ cs, call.Plain)
    (hshort : Short fuel (cs.foldl plainCall (.ofBase (basePostings tokens db))))
    (haligned : AlignedRun tc fuel keys tokens db cs)
    (hn : NoCollision tc (runCalls tc fuel keys tokens db cs)) :
    ∃ s, run tc fuel keys tokens db cs =
      .ok (s, absOuts plainCall plainFound (.ofBase (basePostings tokens db)) cs) := by
  obtain ⟨s, hsetup, hk⟩ := Keeps.setup hn keys hdb (List.subset_append_left _ _)
  rw [AlignedRun, hsetup] at haligned
  have hallowed : ∀ pre call post, cs = pre ++ call :: post →
      call.Plain ∧ Short fuel (pre.foldl plainCall (.ofBase (basePostings tokens db))) := by
    intro pre call post h
    refine ⟨hplain call (by rw [h]; simp), ?_⟩
    rw [h, List.foldl_append] at hshort
    exact hshort.of_foldl
  have hlog : runLog (step tc fuel) (calls tc fuel) s cs ⊆ runCalls tc fuel keys tokens db cs := by
    rw [runCalls, hsetup]
    exact List.subset_append_right _ _
  obtain ⟨s', hruns, -⟩ := runs_matched_along
    (fun _ _ _ hk hcall haligned hlog => Keeps.step hk hn hcall haligned hlog) cs s _ hk hallowed
    haligned hlog
  refine ⟨s', ?_⟩
  rw [run, hsetup]
  exact hruns

end Prototype

end DSSE
