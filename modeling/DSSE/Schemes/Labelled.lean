import DSSE.Schemes.Runs

/-! Lists stored item by item in one flat dictionary: item `c` of the list named `w` sits under the
    label `label w c`. A reader gets a list back by probing `label w 0, label w 1, …` up to the first
    label that is missing. Labels need not be injective: it is enough that the first missing label of
    the list read is not the label of something else that is stored. -/

namespace Schemes

variable {W L V O ε : Type*}

/-- The dictionary `find` holds the items of the lists `E w` under their labels and nothing else. -/
structure Stores (find : L → Option V) (label : W → ℕ → L) (E : W → List V) : Prop where
  hit : ∀ w c v, (E w)[c]? = some v → find (label w c) = some v
  only : ∀ l v, find l = some v → ∃ w c, (E w)[c]? = some v ∧ label w c = l

/-- No stored item other than item `c` of `w` has the label of item `c` of `w`. -/
def Apart (label : W → ℕ → L) (E : W → List V) (w : W) (c : ℕ) : Prop :=
  ∀ w' c', c' < (E w').length → label w' c' = label w c → w' = w ∧ c' = c

/-! ### Storing -/

theorem stores_empty (label : W → ℕ → L) : Stores (fun _ => (none : Option V)) label fun _ => [] :=
  ⟨fun _ _ _ h => by simp at h, fun _ _ h => by simp at h⟩

theorem Stores.find_label {find : L → Option V} {label : W → ℕ → L} {E : W → List V}
    (hs : Stores find label E) {w : W} {c : ℕ} (ha : Apart label E w c) :
    find (label w c) = (E w)[c]? := by
  cases hf : find (label w c) with
  | none =>
    cases hg : (E w)[c]? with
    | none => rfl
    | some v => rw [hs.hit w c v hg] at hf; exact absurd hf (by simp)
  | some v =>
    obtain ⟨w', c', hv, hl⟩ := hs.only _ v hf
    obtain ⟨rfl, rfl⟩ := ha w' c' (List.getElem?_eq_some_iff.mp hv).1 hl
    exact hv.symm

/-- Dictionaries of lists that agree in what `f` shows of their items agree in what it shows of theirs. -/
theorem Stores.map_eq {U : Type*} {find find' : L → Option V} {label : W → ℕ → L} {E E' : W → List V}
    (hs : Stores find label E) (hs' : Stores find' label E') {f : V → U}
    (hE : ∀ w, (E' w).map f = (E w).map f) (l : L) : (find' l).map f = (find l).map f := by
  have hitem : ∀ w (c : ℕ), ((E' w)[c]?).map f = ((E w)[c]?).map f := by
    intro w c
    rw [← List.getElem?_map, hE, List.getElem?_map]
  cases hf : find l with
  | some v =>
    obtain ⟨w, c, hv, rfl⟩ := hs.only l v hf
    have hmap := hitem w c
    rw [hv, Option.map_some, Option.map_eq_some_iff] at hmap
    obtain ⟨v', hv', heq⟩ := hmap
    rw [hs'.hit w c v' hv', Option.map_some, Option.map_some, heq]
  | none =>
    cases hf' : find' l with
    | none => rfl
    | some v' =>
      obtain ⟨w, c, hv', rfl⟩ := hs'.only l v' hf'
      have hmap := hitem w c
      rw [hv', Option.map_some, eq_comm, Option.map_eq_some_iff] at hmap
      obtain ⟨v, hv, -⟩ := hmap
      rw [hs.hit w c v hv] at hf
      cases hf

/-- One more item at the end of one list, put under the next label of that list. -/
theorem Stores.append [DecidableEq W] [DecidableEq L] {find : L → Option V} {label : W → ℕ → L}
    {E : W → List V} (hs : Stores find label E) {w : W} (ha : Apart label E w (E w).length) (v : V) :
    Stores (Function.update find (label w (E w).length) (some v)) label
      (Function.update E w (E w ++ [v])) := by
  have hfree : find (label w (E w).length) = none := by rw [hs.find_label ha]; simp
  constructor
  · intro w' c u hu
    by_cases hw : w' = w
    · subst hw
      rw [Function.update_self] at hu
      rcases Nat.lt_trichotomy c (E w').length with hc | rfl | hc
      · rw [List.getElem?_append_left hc] at hu
        have hfind := hs.hit w' c u hu
        rw [Function.update_of_ne, hfind]
        intro he; rw [he, hfree] at hfind; simp at hfind
      · rw [List.getElem?_concat_length] at hu
        rw [Function.update_self, hu]
      · rw [List.getElem?_eq_none (by simp; omega)] at hu; simp at hu
    · rw [Function.update_of_ne hw] at hu
      have hfind := hs.hit w' c u hu
      rw [Function.update_of_ne, hfind]
      intro he; rw [he, hfree] at hfind; simp at hfind
  · intro l u hl
    by_cases he : l = label w (E w).length
    · subst he
      rw [Function.update_self] at hl
      exact ⟨w, (E w).length, by rw [Function.update_self, List.getElem?_concat_length, hl], rfl⟩
    · rw [Function.update_of_ne he] at hl
      obtain ⟨w', c, hv, hlab⟩ := hs.only l u hl
      refine ⟨w', c, ?_, hlab⟩
      by_cases hw : w' = w
      · subst hw
        rw [Function.update_self, List.getElem?_append_left (List.getElem?_eq_some_iff.mp hv).1, hv]
      · rw [Function.update_of_ne hw, hv]

/-! ### Probing -/

/-- Read a list back: probe the labels from `c` on, pass each item found to `body`, and stop at the
    first label that is missing. `fuel` bounds the probes, and `hang` is the result past the bound. -/
def probe (find : ℕ → Option V) (body : V → Except ε (List O)) (hang : ε) :
    ℕ → ℕ → Except ε (List O)
  | 0, _ => .error hang
  | fuel + 1, c =>
    match find c with
    | none => .ok []
    | some v => do
      let out ← body v
      let rest ← probe find body hang fuel (c + 1)
      return out ++ rest

/-- The indices that `probe` looks up, whatever the items found say. -/
def probed (find : ℕ → Option V) : ℕ → ℕ → List ℕ
  | 0, _ => []
  | fuel + 1, c => c :: if (find c).isSome then probed find fuel (c + 1) else []

/-- What is under the labels `c, c + 1, …` is `vs` and then nothing. -/
structure Run (find : ℕ → Option V) (c : ℕ) (vs : List V) : Prop where
  hit : ∀ i v, vs[i]? = some v → find (c + i) = some v
  miss : find (c + vs.length) = none

theorem Run.head {find : ℕ → Option V} {c : ℕ} {v : V} {vs : List V} (hr : Run find c (v :: vs)) :
    find c = some v := hr.hit 0 v rfl

theorem Run.tail {find : ℕ → Option V} {c : ℕ} {v : V} {vs : List V} (hr : Run find c (v :: vs)) :
    Run find (c + 1) vs :=
  ⟨fun i u hu => by
      have := hr.hit (i + 1) u (by simpa using hu)
      rwa [← Nat.add_assoc, Nat.add_right_comm] at this,
   by have := hr.miss; rwa [List.length_cons, ← Nat.add_assoc, Nat.add_right_comm] at this⟩

/-- A list shorter than the fuel is read to its end, and `body` sees its items in order. -/
theorem Run.probe_eq {find : ℕ → Option V} {body : V → Except ε (List O)} {hang : ε} :
    ∀ {vs : List V} {fuel c : ℕ}, Run find c vs → vs.length < fuel →
      probe find body hang fuel c = (vs.mapM body).map List.flatten
  | [], fuel + 1, c, hr, _ => by
    have := hr.miss
    simp only [List.length_nil, Nat.add_zero] at this
    simp only [probe, this]
    rfl
  | v :: vs, fuel + 1, c, hr, hlen => by
    have ih : probe find body hang fuel (c + 1) = (vs.mapM body).map List.flatten :=
      hr.tail.probe_eq (by simpa using hlen)
    rw [probe, hr.head, List.mapM_cons]
    simp only [ih]
    cases body v with
    | error e => rfl
    | ok out => cases vs.mapM body <;> rfl

theorem mapM_of_forall₂ {body : V → Except ε O} : ∀ {vs : List V} {outs : List O},
    List.Forall₂ (fun v out => body v = .ok out) vs outs → vs.mapM body = .ok outs
  | [], _, .nil => rfl
  | v :: vs, _ :: outs, .cons hv hvs => by
    rw [List.mapM_cons, hv, mapM_of_forall₂ hvs]
    rfl

theorem probe_run {find : ℕ → Option V} {body : V → Except ε (List O)} {hang : ε} {vs : List V}
    {outs : List (List O)} {fuel c : ℕ} (hr : Run find c vs) (hlen : vs.length < fuel)
    (hbody : List.Forall₂ (fun v out => body v = .ok out) vs outs) :
    probe find body hang fuel c = .ok outs.flatten := by
  rw [hr.probe_eq hlen, mapM_of_forall₂ hbody]
  rfl

/-- If the labels `label 0, label 1, …` differ and only `keys` have items, then one of the labels is
    missing: there are not more items in front of it than keys. -/
theorem exists_run {find : ℕ → Option V} {label : ℕ → L} {keys : Finset L} {n : ℕ}
    (hkeys : ∀ c v, find c = some v → label c ∈ keys) (hinj : Set.InjOn label (Set.Iio n))
    (hn : keys.card < n) : ∃ vs, Run find 0 vs ∧ vs.length ≤ keys.card := by
  have hmiss : ∃ c, c ≤ keys.card ∧ find c = none := by
    by_contra! hall
    have hmaps : ∀ c ∈ Finset.range (keys.card + 1), label c ∈ keys := by
      intro c hc
      obtain ⟨v, hv⟩ := Option.ne_none_iff_exists'.mp
        (hall c (Nat.le_of_lt_succ (Finset.mem_range.mp hc)))
      exact hkeys c v hv
    have hmore : keys.card < (Finset.range (keys.card + 1)).card := by rw [Finset.card_range]; omega
    obtain ⟨c, hc, c', hc', hne, hsame⟩ := Finset.exists_ne_map_eq_of_card_lt_of_maps_to hmore hmaps
    rw [Finset.mem_range] at hc hc'
    exact hne (hinj (show c < n by omega) (show c' < n by omega) hsame)
  classical
  obtain ⟨hle, hnone⟩ := Nat.find_spec hmiss
  have hbefore : ∀ c < Nat.find hmiss, ∃ v, find c = some v := by
    intro c hc
    refine Option.ne_none_iff_exists'.mp fun hc' => Nat.find_min hmiss hc ⟨by omega, hc'⟩
  choose item hitem using hbefore
  refine ⟨List.ofFn fun c : Fin (Nat.find hmiss) => item c c.2, ⟨fun c v hv => ?_, ?_⟩, ?_⟩
  · rw [List.getElem?_ofFn] at hv
    split at hv
    · rename_i hlt
      rw [Nat.zero_add, hitem c hlt]
      exact hv
    · cases hv
  · rw [List.length_ofFn, Nat.zero_add]
    exact hnone
  · rw [List.length_ofFn]
    exact hle

/-- The probes made include the index of every item and the next one, whatever follows the items. -/
theorem mem_probed (find : ℕ → Option V) :
    ∀ {vs : List V} {fuel c i : ℕ}, (∀ j v, vs[j]? = some v → find (c + j) = some v) →
      vs.length < fuel → i ≤ vs.length → c + i ∈ probed find fuel c
  | _, fuel + 1, c, 0, _, _, _ => by simp [probed]
  | v :: vs, fuel + 1, c, i + 1, hit, hlen, hi => by
    have hhead : find c = some v := hit 0 v rfl
    have htail : ∀ j u, vs[j]? = some u → find (c + 1 + j) = some u := by
      intro j u hu
      have := hit (j + 1) u (by simpa using hu)
      rwa [← Nat.add_assoc, Nat.add_right_comm] at this
    have ih := mem_probed find htail (by simpa using hlen) (Nat.le_of_succ_le_succ hi)
    rw [probed, hhead, Option.isSome_some, if_pos rfl]
    exact List.mem_cons_of_mem _ (by rwa [Nat.add_right_comm, Nat.add_assoc] at ih)

/-- A reading that came to its end passed every item under the labels probed through `body`. -/
theorem probe_bodies {find : ℕ → Option V} {body : V → Except ε (List O)} {hang : ε} :
    ∀ {fuel c : ℕ} {out : List O}, probe find body hang fuel c = .ok out →
      ∀ i ∈ probed find fuel c, ∀ v, find i = some v → ∃ o, body v = .ok o
  | 0, _, _, h, _, _, _, _ => by cases h
  | fuel + 1, c, out, h, i, hi, v, hv => by
    rw [probe] at h
    rw [probed] at hi
    cases hc : find c with
    | none =>
      rw [hc] at hi
      obtain rfl : i = c := by simpa using hi
      rw [hc] at hv
      cases hv
    | some u =>
      rw [hc] at h hi
      obtain ⟨o, hu, h⟩ := exists_of_bind_ok h
      obtain ⟨rest, hrest, -⟩ := exists_of_bind_ok h
      rcases List.mem_cons.mp hi with rfl | hi
      · rw [hc] at hv
        cases hv
        exact ⟨o, hu⟩
      · exact probe_bodies hrest i hi v hv

/-- What is read comes from an item under one of the labels probed. -/
theorem probe_mem {find : ℕ → Option V} {body : V → Except ε (List O)} {hang : ε} :
    ∀ {fuel c : ℕ} {out : List O}, probe find body hang fuel c = .ok out →
      ∀ o ∈ out, ∃ i ∈ probed find fuel c, ∃ v os, find i = some v ∧ body v = .ok os ∧ o ∈ os
  | 0, _, _, h, _, _ => by cases h
  | fuel + 1, c, out, h, o, ho => by
    rw [probe] at h
    cases hc : find c with
    | none =>
      rw [hc] at h
      cases h
      cases ho
    | some v =>
      rw [hc] at h
      obtain ⟨os, hos, h⟩ := exists_of_bind_ok h
      obtain ⟨rest, hrest, h⟩ := exists_of_bind_ok h
      cases h
      rw [probed, hc, Option.isSome_some, if_pos rfl]
      rcases List.mem_append.mp ho with ho | ho
      · exact ⟨c, List.mem_cons_self, v, os, hc, hos, ho⟩
      · obtain ⟨i, hi, v', os', hv', hos', ho'⟩ := probe_mem hrest o ho
        exact ⟨i, List.mem_cons_of_mem _ hi, v', os', hv', hos', ho'⟩

/-- A reading depends on nothing but what is under the labels probed. -/
theorem probe_congr {find find' : ℕ → Option V} {body : V → Except ε (List O)} {hang : ε} :
    ∀ {fuel c : ℕ}, (∀ i ∈ probed find fuel c, find' i = find i) →
      probe find' body hang fuel c = probe find body hang fuel c
  | 0, _, _ => rfl
  | fuel + 1, c, h => by
    rw [probe, probe, h c (by rw [probed]; exact List.mem_cons_self)]
    cases hc : find c with
    | none => rfl
    | some v =>
      have ih : probe find' body hang fuel (c + 1) = probe find body hang fuel (c + 1) := by
        refine probe_congr fun i hi => h i ?_
        rw [probed, hc]
        exact List.mem_cons_of_mem _ hi
      simp only [ih]

/-- Filtering what each item yields is filtering the whole list read. -/
theorem probe_filter {find : ℕ → Option V} {body body' : V → Except ε (List O)} {hang : ε}
    {p : O → Bool} (hb : ∀ v, body' v = (body v).map (List.filter p)) :
    ∀ fuel c, probe find body' hang fuel c = (probe find body hang fuel c).map (List.filter p)
  | 0, _ => rfl
  | fuel + 1, c => by
    rw [probe, probe]
    cases find c with
    | none => rfl
    | some v =>
      simp only [hb v, probe_filter hb fuel (c + 1)]
      cases body v with
      | error e => rfl
      | ok out =>
        cases probe find body hang fuel (c + 1) with
        | error e => rfl
        | ok rest => simp [Except.map, bind, Except.bind, pure, Except.pure]

end Schemes
