import Mathlib

/-! What the encrypted index is for, without the encryption: a posting list for each word as Setup
    made it, the ids added to each word since, and the set of pairs that are revoked. Adding a
    revoked pair only takes the revocation back. A search lists both lists of a word without its
    revoked ids. -/

namespace DSSE

/-- A searchable index over words `W` and file ids `F`, in the clear. -/
@[ext] structure PlainIndex (W F : Type*) where
  base : W → List F
  added : W → List F
  revoked : Finset (W × F)

namespace PlainIndex
variable {W F : Type*} [DecidableEq W] [DecidableEq F]

/-- A new index: nothing added, nothing revoked. -/
def ofBase (base : W → List F) : PlainIndex W F := ⟨base, fun _ => [], ∅⟩

/-- Add one word to a file: take its revocation back, or append the file to the word's list. -/
def addWord (id : F) (ix : PlainIndex W F) (w : W) : PlainIndex W F :=
  if (w, id) ∈ ix.revoked then { ix with revoked := ix.revoked.erase (w, id) }
  else { ix with added := Function.update ix.added w (ix.added w ++ [id]) }

def add (ix : PlainIndex W F) (id : F) (words : List W) : PlainIndex W F :=
  words.foldl (addWord id) ix

def delete (ix : PlainIndex W F) (id : F) (words : List W) : PlainIndex W F :=
  { ix with revoked := ix.revoked ∪ (words.map fun w => (w, id)).toFinset }

def search (ix : PlainIndex W F) (w : W) : List F :=
  (ix.base w ++ ix.added w).filter fun id => (w, id) ∉ ix.revoked

/-! ### One word -/

@[simp] theorem addWord_base (id : F) (ix : PlainIndex W F) (w : W) :
    (ix.addWord id w).base = ix.base := by
  unfold addWord; split <;> rfl

theorem addWord_added (id : F) (ix : PlainIndex W F) (w u : W) :
    (ix.addWord id w).added u =
      if u = w ∧ (w, id) ∉ ix.revoked then ix.added u ++ [id] else ix.added u := by
  unfold addWord
  by_cases hr : (w, id) ∈ ix.revoked
  · simp [hr]
  · by_cases hu : u = w
    · subst hu; simp [hr]
    · simp [hr, hu]

theorem mem_revoked_addWord (id : F) (ix : PlainIndex W F) (w : W) (q : W × F) :
    q ∈ (ix.addWord id w).revoked ↔ q ∈ ix.revoked ∧ q ≠ (w, id) := by
  unfold addWord
  by_cases hr : (w, id) ∈ ix.revoked
  · simp [hr, and_comm]
  · simp only [hr, if_false]
    exact ⟨fun h => ⟨h, fun he => hr (he ▸ h)⟩, And.left⟩

/-- The order of two words of one add does not matter. -/
theorem addWord_comm (id : F) (ix : PlainIndex W F) (x y : W) :
    (ix.addWord id x).addWord id y = (ix.addWord id y).addWord id x := by
  rcases eq_or_ne x y with rfl | hxy
  · rfl
  · ext1
    · simp
    · funext u
      simp only [addWord_added, mem_revoked_addWord]
      by_cases hux : u = x
      · subst hux; simp [hxy]
      · by_cases huy : u = y
        · subst huy; simp [hux]
        · simp [hux, huy]
    · ext q
      simp only [mem_revoked_addWord]
      tauto

instance (id : F) : RightCommutative (addWord (W := W) id) := ⟨addWord_comm id⟩

/-! ### A whole add -/

@[simp] theorem add_nil (ix : PlainIndex W F) (id : F) : ix.add id [] = ix := rfl

theorem add_cons (ix : PlainIndex W F) (id : F) (w : W) (words : List W) :
    ix.add id (w :: words) = (ix.addWord id w).add id words := rfl

theorem add_perm {words words' : List W} (h : words.Perm words') (ix : PlainIndex W F) (id : F) :
    ix.add id words = ix.add id words' := h.foldl_eq ix

@[simp] theorem add_base (id : F) : ∀ (words : List W) (ix : PlainIndex W F),
    (ix.add id words).base = ix.base
  | [], _ => rfl
  | w :: words, ix => by rw [add_cons, add_base id words, addWord_base]

/-- A word that is not in the list keeps what was added to it. -/
theorem add_added_of_notMem (id : F) : ∀ {words : List W} (ix : PlainIndex W F) {u : W}, u ∉ words →
    (ix.add id words).added u = ix.added u
  | [], _, _, _ => rfl
  | w :: words, ix, u, hu => by
    obtain ⟨huw, hu⟩ := List.ne_and_not_mem_of_not_mem_cons hu
    rw [add_cons, add_added_of_notMem id _ hu, addWord_added, if_neg (fun h => huw h.1)]

theorem mem_revoked_add (id : F) : ∀ {words : List W} (ix : PlainIndex W F) (q : W × F),
    q ∈ (ix.add id words).revoked ↔ q ∈ ix.revoked ∧ ¬ (q.1 ∈ words ∧ q.2 = id)
  | [], ix, q => by simp
  | w :: words, ix, q => by
    rw [add_cons, mem_revoked_add id, mem_revoked_addWord]
    obtain ⟨u, i⟩ := q
    simp only [ne_eq, Prod.mk.injEq, List.mem_cons]
    tauto

/-- Without repeats in the list, each of its words grows by the file unless the pair was revoked. -/
theorem add_added_of_mem (id : F) : ∀ {words : List W} (ix : PlainIndex W F) {u : W}, words.Nodup →
    u ∈ words →
    (ix.add id words).added u = if (u, id) ∈ ix.revoked then ix.added u else ix.added u ++ [id]
  | w :: words, ix, u, hn, hu => by
    obtain ⟨hw, hn⟩ := List.nodup_cons.mp hn
    rw [add_cons]
    rcases List.mem_cons.mp hu with rfl | hu
    · rw [add_added_of_notMem id _ hw, addWord_added]
      by_cases hr : (u, id) ∈ ix.revoked <;> simp [hr]
    · have hne : u ≠ w := fun h => hw (h ▸ hu)
      have hrev : (u, id) ∈ (ix.addWord id w).revoked ↔ (u, id) ∈ ix.revoked := by
        rw [mem_revoked_addWord]
        exact and_iff_left fun h => hne (Prod.mk.inj h).1
      have hadd : (ix.addWord id w).added u = ix.added u := by
        rw [addWord_added, if_neg fun h => hne h.1]
      rw [add_added_of_mem id _ hn hu, hadd]
      simp only [hrev]

theorem added_prefix_addWord (id : F) (ix : PlainIndex W F) (w u : W) :
    ix.added u <+: (ix.addWord id w).added u := by
  rw [addWord_added]
  split
  · exact List.prefix_append _ _
  · exact List.prefix_rfl

/-- Lists of added ids only grow. -/
theorem added_prefix_add (id : F) : ∀ (words : List W) (ix : PlainIndex W F) (u : W),
    ix.added u <+: (ix.add id words).added u
  | [], _, _ => List.prefix_rfl
  | w :: words, ix, u =>
    (added_prefix_addWord id ix w u).trans (added_prefix_add id words (ix.addWord id w) u)

theorem length_added_add_le (id : F) (words : List W) (ix : PlainIndex W F) (u : W) :
    (ix.added u).length ≤ ((ix.add id words).added u).length :=
  (added_prefix_add id words ix u).length_le

/-- Every word of an add whose pair is not revoked gets the file, also if the word is repeated. -/
theorem mem_added_add (id : F) : ∀ {words : List W} {ix : PlainIndex W F} {w : W}, w ∈ words →
    (w, id) ∉ ix.revoked → id ∈ (ix.add id words).added w
  | u :: words, ix, w, hw, hr => by
    rw [add_cons]
    rcases eq_or_ne w u with rfl | hne
    · have hmem : id ∈ (ix.addWord id w).added w := by
        rw [addWord_added, if_pos ⟨rfl, hr⟩]; simp
      exact (added_prefix_add id words _ w).subset hmem
    · have hw' := (List.mem_cons.mp hw).resolve_left hne
      refine mem_added_add id hw' fun h => hr ?_
      exact ((mem_revoked_addWord id ix u (w, id)).mp h).1

/-- No word of the add is appended twice: a word occurs once, or twice where its first occurrence only
    takes a revocation back. -/
def Single (ix : PlainIndex W F) (id : F) (words : List W) : Prop :=
  ∀ w, words.count w ≤ if (w, id) ∈ ix.revoked then 2 else 1

theorem single_iff_forall_mem {ix : PlainIndex W F} {id : F} {words : List W} :
    ix.Single id words ↔ ∀ w ∈ words, words.count w ≤ if (w, id) ∈ ix.revoked then 2 else 1 := by
  refine ⟨fun h w _ => h w, fun h w => ?_⟩
  by_cases hw : w ∈ words
  · exact h w hw
  · rw [List.count_eq_zero_of_not_mem hw]; exact Nat.zero_le _

instance (ix : PlainIndex W F) (id : F) (words : List W) : Decidable (ix.Single id words) :=
  decidable_of_iff _ single_iff_forall_mem.symm

theorem Single.of_nodup {words : List W} (hn : words.Nodup) (ix : PlainIndex W F) (id : F) :
    ix.Single id words := by
  intro w
  have := List.nodup_iff_count_le_one.mp hn w
  split <;> omega

theorem Single.perm {ix : PlainIndex W F} {id : F} {words words' : List W} (h : ix.Single id words)
    (hp : words.Perm words') : ix.Single id words' := by
  intro w; rw [← hp.count_eq]; exact h w

theorem Single.notMem {ix : PlainIndex W F} {id : F} {w : W} {words : List W}
    (h : ix.Single id (w :: words)) (hr : (w, id) ∉ ix.revoked) : w ∉ words := by
  have := h w
  rw [List.count_cons_self, if_neg hr] at this
  exact List.count_eq_zero.mp (by omega)

theorem Single.tail {ix : PlainIndex W F} {id : F} {w : W} {words : List W}
    (h : ix.Single id (w :: words)) : (ix.addWord id w).Single id words := by
  intro u
  have hu := h u
  rcases eq_or_ne u w with rfl | huw
  · have hnot : (u, id) ∉ (ix.addWord id u).revoked := fun hm =>
      ((mem_revoked_addWord id ix u (u, id)).mp hm).2 rfl
    rw [List.count_cons_self] at hu
    rw [if_neg hnot]
    split at hu <;> omega
  · have hrev : (u, id) ∈ (ix.addWord id w).revoked ↔ (u, id) ∈ ix.revoked := by
      rw [mem_revoked_addWord]
      exact and_iff_left fun he => huw (Prod.mk.inj he).1
    rw [List.count_cons_of_ne (Ne.symm huw)] at hu
    simpa only [hrev] using hu

theorem mem_revoked_delete (ix : PlainIndex W F) (id : F) (words : List W) (q : W × F) :
    q ∈ (ix.delete id words).revoked ↔ q ∈ ix.revoked ∨ q.1 ∈ words ∧ q.2 = id := by
  obtain ⟨u, i⟩ := q
  simp only [delete, Finset.mem_union, List.mem_toFinset, List.mem_map, Prod.mk.injEq]
  constructor
  · rintro (h | ⟨w, hw, rfl, rfl⟩)
    · exact Or.inl h
    · exact Or.inr ⟨hw, rfl⟩
  · rintro (h | ⟨hu, rfl⟩)
    · exact Or.inl h
    · exact Or.inr ⟨u, hu, rfl, rfl⟩

/-- After an add without repeats, a word of the list finds the file exactly when the file was stored
    under it before or the pair was not revoked. -/
theorem mem_search_add {ix : PlainIndex W F} {id : F} {words : List W} (hn : words.Nodup) {w : W}
    (hw : w ∈ words) : id ∈ (ix.add id words).search w ↔
      ((w, id) ∈ ix.revoked → id ∈ ix.base w ++ ix.added w) := by
  have hrev : (w, id) ∉ (ix.add id words).revoked := by
    rw [mem_revoked_add]; exact fun h => h.2 ⟨hw, rfl⟩
  rw [search, List.mem_filter, add_base, add_added_of_mem id ix hn hw]
  by_cases hr : (w, id) ∈ ix.revoked
  · simp [hr, hrev]
  · simp [hr, hrev]

/-! ### Other ids for the files -/

/-- The index with every file under another id. -/
def map {G : Type*} (name : F ↪ G) (ix : PlainIndex W F) : PlainIndex W G where
  base w := (ix.base w).map name
  added w := (ix.added w).map name
  revoked := ix.revoked.map ((Function.Embedding.refl W).prodMap name)

section Map
variable {G : Type*} (name : F ↪ G) (ix : PlainIndex W F)

omit [DecidableEq W] [DecidableEq F] in
theorem mem_revoked_map (w : W) (id : F) :
    (w, name id) ∈ (ix.map name).revoked ↔ (w, id) ∈ ix.revoked := by
  have hpair : (w, name id) = (Function.Embedding.refl W).prodMap name (w, id) := rfl
  rw [map, hpair, Finset.mem_map']

variable [DecidableEq G]

theorem map_addWord (id : F) (w : W) : (ix.addWord id w).map name = (ix.map name).addWord (name id) w := by
  unfold addWord
  by_cases hr : (w, id) ∈ ix.revoked
  · rw [if_pos hr, if_pos ((mem_revoked_map name ix w id).mpr hr)]
    simp only [map, Finset.map_erase]
    rfl
  · rw [if_neg hr, if_neg (mt (mem_revoked_map name ix w id).mp hr)]
    refine PlainIndex.ext rfl (funext fun u => ?_) rfl
    by_cases hu : u = w
    · subst hu; simp [map]
    · simp [map, hu]

theorem map_add (id : F) : ∀ (words : List W) (ix : PlainIndex W F),
    (ix.add id words).map name = (ix.map name).add (name id) words
  | [], _ => rfl
  | w :: words, ix => by rw [add_cons, add_cons, map_add id words, map_addWord]

theorem map_delete (id : F) (words : List W) :
    (ix.delete id words).map name = (ix.map name).delete (name id) words := by
  refine PlainIndex.ext rfl rfl ?_
  simp only [delete, map, Finset.map_union]
  congr 1
  ext q
  simp only [Finset.mem_map, List.mem_toFinset, List.mem_map]
  constructor
  · rintro ⟨_, ⟨w, hw, rfl⟩, rfl⟩
    exact ⟨w, hw, rfl⟩
  · rintro ⟨w, hw, rfl⟩
    exact ⟨_, ⟨w, hw, rfl⟩, rfl⟩

theorem map_search (w : W) : (ix.map name).search w = (ix.search w).map name := by
  have hlists : (ix.map name).base w ++ (ix.map name).added w = (ix.base w ++ ix.added w).map name :=
    List.map_append.symm
  rw [search, search, hlists, List.filter_map]
  congr 1
  refine List.filter_congr fun id _ => ?_
  simp only [Function.comp_apply, mem_revoked_map]

end Map

end PlainIndex

end DSSE
