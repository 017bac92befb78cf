import PageDb.SortedMap

/-!
The laws of sorted maps whose keys lie in a class on which comparison is an order.

Comparison need not be transitive on all keys, so every law is relative to a predicate `P` on keys
with `OrderedOn P`.  A map is `Ascending P` if its keys lie in the class and ascend strictly.
-/

namespace PageDb

namespace SortedMap

variable {κ ν ω : Type} [Ord κ] {P : κ → Prop}

/-- Comparison is a total preorder on the keys that satisfy `P`. -/
abbrev OrderedOn (P : κ → Prop) : Prop :=
  Std.TransCmp fun a b : { k // P k } => compare a.1 b.1

theorem orderedOn_all [Std.TransOrd κ] : OrderedOn fun _ : κ => True where
  eq_swap := Std.OrientedCmp.eq_swap
  isLE_trans := Std.TransCmp.isLE_trans

namespace OrderedOn

variable {a b c : κ}

theorem refl (h : OrderedOn P) (ha : P a) : compare a a = .eq :=
  @Std.ReflCmp.compare_self _ (fun a b : { k // P k } => compare a.1 b.1) _ ⟨a, ha⟩

theorem swap (h : OrderedOn P) (ha : P a) (hb : P b) : compare a b = (compare b a).swap :=
  h.eq_swap (a := ⟨a, ha⟩) (b := ⟨b, hb⟩)

theorem symm (h : OrderedOn P) (ha : P a) (hb : P b) (hab : compare a b = .eq) :
    compare b a = .eq := by
  rw [h.swap hb ha, hab]; rfl

theorem lt_of_gt (h : OrderedOn P) (ha : P a) (hb : P b) (hab : compare a b = .gt) :
    compare b a = .lt := by
  rw [h.swap hb ha, hab]; rfl

theorem gt_of_lt (h : OrderedOn P) (ha : P a) (hb : P b) (hab : compare a b = .lt) :
    compare b a = .gt := by
  rw [h.swap hb ha, hab]; rfl

theorem lt_trans (h : OrderedOn P) (ha : P a) (hb : P b) (hc : P c)
    (hab : compare a b = .lt) (hbc : compare b c = .lt) : compare a c = .lt :=
  @Std.TransCmp.lt_trans _ (fun a b : { k // P k } => compare a.1 b.1) h
    ⟨a, ha⟩ ⟨b, hb⟩ ⟨c, hc⟩ hab hbc

/-- Keys that compare as equal compare alike with every other key. -/
theorem congr_left (h : OrderedOn P) (ha : P a) (hb : P b) (hc : P c)
    (hab : compare a b = .eq) : compare a c = compare b c :=
  @Std.TransCmp.congr_left _ (fun a b : { k // P k } => compare a.1 b.1) h
    ⟨a, ha⟩ ⟨b, hb⟩ ⟨c, hc⟩ hab

theorem congr_right (h : OrderedOn P) (ha : P a) (hb : P b) (hc : P c)
    (hbc : compare b c = .eq) : compare a b = compare a c :=
  @Std.TransCmp.congr_right _ (fun a b : { k // P k } => compare a.1 b.1) h
    ⟨a, ha⟩ ⟨b, hb⟩ ⟨c, hc⟩ hbc

end OrderedOn

/-- Bindings whose keys lie in the class `P` and ascend strictly. -/
structure AscendingList (P : κ → Prop) (bindings : List (κ × ν)) : Prop where
  holds : ∀ b ∈ bindings, P b.1
  increasing : bindings.Pairwise fun a b => compare a.1 b.1 = .lt

/-- A map whose keys lie in the class `P` and ascend strictly. -/
abbrev Ascending (P : κ → Prop) (m : SortedMap κ ν) : Prop := AscendingList P m.toList

theorem AscendingList.nil : AscendingList P ([] : List (κ × ν)) :=
  ⟨by simp, .nil⟩

theorem AscendingList.head {k : κ} {v : ν} {rest : List (κ × ν)}
    (h : AscendingList P ((k, v) :: rest)) : P k := h.holds (k, v) (by simp)

theorem AscendingList.tail {b : κ × ν} {rest : List (κ × ν)}
    (h : AscendingList P (b :: rest)) : AscendingList P rest :=
  ⟨fun b hb => h.holds b (by simp [hb]), h.increasing.of_cons⟩

theorem AscendingList.head_lt {k : κ} {v : ν} {rest : List (κ × ν)}
    (h : AscendingList P ((k, v) :: rest)) {b : κ × ν} (hb : b ∈ rest) :
    compare k b.1 = .lt :=
  List.rel_of_pairwise_cons h.increasing hb

theorem ascendingList_cons {k : κ} {v : ν} {rest : List (κ × ν)} :
    AscendingList P ((k, v) :: rest) ↔
      P k ∧ (∀ b ∈ rest, compare k b.1 = .lt) ∧ AscendingList P rest := by
  constructor
  · intro h
    exact ⟨h.head, fun b hb => h.head_lt hb, h.tail⟩
  · rintro ⟨hk, hlt, h⟩
    exact ⟨by simpa using ⟨hk, fun a b => h.holds (a, b)⟩, .cons (by simpa using hlt) h.increasing⟩

/-- The smallest binding of ascending bindings is the first one. -/
theorem AscendingList.eq_head (hP : OrderedOn P) {b c : κ × ν} {rest more : List (κ × ν)}
    (h : AscendingList P (b :: rest)) (h' : AscendingList P (c :: more)) (hb : b ∈ c :: more)
    (hc : c ∈ b :: rest) : b = c := by
  rcases List.mem_cons.1 hb with hbc | hb
  · exact hbc
  rcases List.mem_cons.1 hc with hcb | hc
  · exact hcb.symm
  have hlt := List.rel_of_pairwise_cons h.increasing hc
  have hgt := List.rel_of_pairwise_cons h'.increasing hb
  have hb' : P b.1 := h.holds b (by simp)
  have hself := hP.lt_trans hb' (h'.holds c (by simp)) hb' hlt hgt
  rw [hP.refl hb'] at hself
  cases hself

/-- Ascending bindings are determined by which bindings there are. -/
theorem AscendingList.ext (hP : OrderedOn P) {bindings others : List (κ × ν)}
    (h : AscendingList P bindings) (h' : AscendingList P others)
    (hmem : ∀ b, b ∈ bindings ↔ b ∈ others) : bindings = others := by
  induction bindings generalizing others with
  | nil =>
    cases others with
    | nil => rfl
    | cons c more => exact absurd ((hmem c).2 (by simp)) (by simp)
  | cons b rest ih =>
    cases others with
    | nil => exact absurd ((hmem b).1 (by simp)) (by simp)
    | cons c more =>
      obtain rfl := h.eq_head hP h' ((hmem b).1 (by simp)) ((hmem c).2 (by simp))
      have hne {d : κ × ν} {l : List (κ × ν)} (hl : AscendingList P (b :: l)) (hd : d ∈ l) :
          d ≠ b := by
        rintro rfl
        have hlt := List.rel_of_pairwise_cons hl.increasing hd
        rw [hP.refl (hl.holds d (by simp))] at hlt
        cases hlt
      rw [ih h.tail h'.tail fun d => ?_]
      have hd := hmem d
      simp only [List.mem_cons] at hd
      exact ⟨fun hmem => (hd.1 (.inr hmem)).resolve_left (hne h hmem),
        fun hmem => (hd.2 (.inr hmem)).resolve_left (hne h' hmem)⟩

/-- Ascending maps are determined by which bindings there are. -/
theorem Ascending.ext (hP : OrderedOn P) {m m' : SortedMap κ ν} (hm : m.Ascending P)
    (hm' : m'.Ascending P) (hmem : ∀ b, b ∈ m.toList ↔ b ∈ m'.toList) : m = m' := by
  have hlist := AscendingList.ext hP hm hm' hmem
  cases m; cases m'; simpa using hlist

/-! ## Finding a binding -/

theorem find?_eq_none_of_lt {key : κ} {bindings : List (κ × ν)}
    (h : ∀ b ∈ bindings, compare key b.1 = .lt) : find? key bindings = none := by
  cases bindings with
  | nil => rfl
  | cons b rest =>
    obtain ⟨k, v⟩ := b
    have hk : compare key k = .lt := h (k, v) (by simp)
    simp [find?, hk]

/-- What is found is a binding whose key compares as equal; this needs no order. -/
theorem mem_of_find? {key : κ} {bindings : List (κ × ν)} {b : κ × ν}
    (h : find? key bindings = some b) : b ∈ bindings ∧ compare key b.1 = .eq := by
  induction bindings with
  | nil => simp [find?] at h
  | cons c rest ih =>
    obtain ⟨k, v⟩ := c
    cases hk : compare key k with
    | lt => simp [find?, hk] at h
    | eq =>
      simp only [find?, hk, Option.some.injEq] at h
      subst h
      exact ⟨by simp, hk⟩
    | gt =>
      simp only [find?, hk] at h
      exact ⟨by simp [(ih h).1], (ih h).2⟩

theorem exists_mem_of_get? {m : SortedMap κ ν} {key : κ} {v : ν} (h : m.get? key = some v) :
    ∃ k, (k, v) ∈ m.toList := by
  obtain ⟨b, hb, rfl⟩ := Option.map_eq_some_iff.1 h
  exact ⟨b.1, (mem_of_find? hb).1⟩

/-- Keys that compare alike with all keys there find the same. -/
theorem find?_congr {a b : κ} {bindings : List (κ × ν)}
    (h : ∀ c ∈ bindings, compare a c.1 = compare b c.1) : find? a bindings = find? b bindings := by
  induction bindings with
  | nil => rfl
  | cons c rest ih =>
    obtain ⟨k, v⟩ := c
    rw [find?, find?, h (k, v) (by simp), ih fun c hc => h c (by simp [hc])]

theorem find?_eq_some_iff (hP : OrderedOn P) {key : κ} (hkey : P key) {bindings : List (κ × ν)}
    (h : AscendingList P bindings) {b : κ × ν} :
    find? key bindings = some b ↔ b ∈ bindings ∧ compare key b.1 = .eq := by
  refine ⟨mem_of_find?, ?_⟩
  rintro ⟨hb, heq⟩
  induction bindings with
  | nil => simp at hb
  | cons c rest ih =>
    obtain ⟨k, v⟩ := c
    rcases List.mem_cons.1 hb with rfl | hb
    · simp [find?, heq]
    · have hgt : compare key k = .gt := by
        rw [hP.congr_left hkey (h.holds b (by simp [hb])) h.head heq]
        exact hP.gt_of_lt h.head (h.holds b (by simp [hb])) (h.head_lt hb)
      simp [find?, hgt, ih h.tail hb]

theorem get?_eq_some_iff (hP : OrderedOn P) {m : SortedMap κ ν} (hm : m.Ascending P) {key : κ}
    (hkey : P key) {v : ν} :
    m.get? key = some v ↔ ∃ k, (k, v) ∈ m.toList ∧ compare key k = .eq := by
  simp only [get?, Option.map_eq_some_iff, Prod.exists, exists_eq_right]
  exact exists_congr fun k => find?_eq_some_iff hP hkey hm

theorem find?_map (key : κ) (f : κ × ν → ω) (bindings : List (κ × ν)) :
    find? key (bindings.map fun b => (b.1, f b)) =
      (find? key bindings).map fun b => (b.1, f b) := by
  induction bindings with
  | nil => rfl
  | cons b rest ih =>
    obtain ⟨k, v⟩ := b
    simp only [List.map_cons, find?]
    cases compare key k <;> simp [ih]

theorem get?_mapValues (m : SortedMap κ ν) (f : ν → ω) (key : κ) :
    (m.mapValues f).get? key = (m.get? key).map f := by
  show (find? key (m.toList.map fun b => (b.1, f b.2))).map Prod.snd = _
  rw [find?_map key (fun b => f b.2), Option.map_map, get?, Option.map_map]
  rfl

theorem get?_of_mem (hP : OrderedOn P) {m : SortedMap κ ν} (hm : m.Ascending P) {k : κ} {v : ν}
    (h : (k, v) ∈ m.toList) : m.get? k = some v :=
  (get?_eq_some_iff hP hm (hm.holds _ h)).2 ⟨k, h, hP.refl (hm.holds _ h)⟩

/-- A key finds what every key that compares as equal finds. -/
theorem get?_congr (hP : OrderedOn P) {m : SortedMap κ ν} (hm : m.Ascending P) {a b : κ}
    (ha : P a) (hb : P b) (hab : compare a b = .eq) : m.get? a = m.get? b := by
  ext v
  simp only [get?_eq_some_iff hP hm ha, get?_eq_some_iff hP hm hb]
  refine exists_congr fun k => and_congr_right fun hk => ?_
  rw [hP.congr_left ha hb (hm.holds _ hk) hab]

theorem getKey?_eq_none_iff {m : SortedMap κ ν} {key : κ} :
    m.getKey? key = none ↔ m.get? key = none := by
  simp [getKey?, get?]

/-- A key finds what the key of the map that answers to it finds. -/
theorem get?_of_getKey? (hP : OrderedOn P) {m : SortedMap κ ν} (hm : m.Ascending P) {key k : κ}
    (h : m.getKey? key = some k) : P k ∧ m.get? key = m.get? k := by
  obtain ⟨b, hb, rfl⟩ := Option.map_eq_some_iff.1 h
  have hmem := (mem_of_find? hb).1
  refine ⟨hm.holds b hmem, ?_⟩
  rw [get?_of_mem hP hm hmem, get?, hb, Option.map_some]

theorem contains_eq_false_iff {m : SortedMap κ ν} {key : κ} :
    m.contains key = false ↔ m.get? key = none := by
  simp [contains]

theorem get?_eq_none_of_isEmpty {m : SortedMap κ ν} (h : m.isEmpty = true) (key : κ) :
    m.get? key = none := by
  obtain ⟨bindings⟩ := m
  obtain rfl : bindings = [] := by simpa [isEmpty] using h
  rfl

theorem isEmpty_eq_false_of_get? {m : SortedMap κ ν} {key : κ} {v : ν} (h : m.get? key = some v) :
    m.isEmpty = false := by
  rw [Bool.eq_false_iff]
  intro hempty
  simp [get?_eq_none_of_isEmpty hempty] at h

/-! ## What the operations keep in order -/

theorem mem_insertInto {key : κ} {value : ν} {bindings : List (κ × ν)} {b : κ × ν}
    (h : b ∈ insertInto key value bindings) :
    b = (key, value) ∨ b ∈ bindings ∨ ∃ v, (b.1, v) ∈ bindings := by
  induction bindings with
  | nil => simpa [insertInto] using h
  | cons c rest ih =>
    obtain ⟨k, v⟩ := c
    simp only [insertInto] at h
    split at h
    · rcases List.mem_cons.1 h with rfl | h
      · exact .inl rfl
      · exact .inr (.inl h)
    · rcases List.mem_cons.1 h with rfl | h
      · exact .inr (.inr ⟨v, by simp⟩)
      · exact .inr (.inl (by simp [h]))
    · rcases List.mem_cons.1 h with rfl | h
      · exact .inr (.inl (by simp))
      · rcases ih h with h | h | ⟨w, h⟩
        · exact .inl h
        · exact .inr (.inl (by simp [h]))
        · exact .inr (.inr ⟨w, by simp [h]⟩)

/-- A key that is new is bound besides the others. -/
theorem mem_insertInto_of_new {key : κ} {value : ν} {bindings : List (κ × ν)}
    (hnew : find? key bindings = none) {b : κ × ν} :
    b ∈ insertInto key value bindings ↔ b = (key, value) ∨ b ∈ bindings := by
  induction bindings with
  | nil => simp [insertInto]
  | cons c rest ih =>
    obtain ⟨k, v⟩ := c
    simp only [find?] at hnew
    simp only [insertInto]
    cases hcompare : compare key k with
    | lt => simp
    | eq => simp [hcompare] at hnew
    | gt =>
      rw [hcompare] at hnew
      simp only [List.mem_cons, ih hnew]
      exact or_left_comm

/-- A binding whose value is changed keeps its key. -/
theorem mem_modifyIn {key : κ} {f : ν → ν} {bindings : List (κ × ν)} {b : κ × ν}
    (h : b ∈ modifyIn key f bindings) :
    b ∈ bindings ∨ ∃ v, (b.1, v) ∈ bindings ∧ b.2 = f v ∧ compare key b.1 = .eq := by
  induction bindings with
  | nil => exact .inl h
  | cons c rest ih =>
    obtain ⟨k, v⟩ := c
    simp only [modifyIn] at h
    split at h
    · exact .inl h
    · rename_i heq
      rcases List.mem_cons.1 h with rfl | h
      · exact .inr ⟨v, by simp, rfl, heq⟩
      · exact .inl (List.mem_cons_of_mem _ h)
    · rcases List.mem_cons.1 h with rfl | h
      · exact .inl (by simp)
      · rcases ih h with h | ⟨w, hw, hb⟩
        · exact .inl (List.mem_cons_of_mem _ h)
        · exact .inr ⟨w, List.mem_cons_of_mem _ hw, hb⟩

/-- A binding whose value is changed is there with its new value. -/
theorem exists_mem_modify {m : SortedMap κ ν} {key : κ} {v : ν} (h : m.get? key = some v)
    (f : ν → ν) : ∃ k, (k, f v) ∈ (m.modify key f).toList := by
  obtain ⟨bindings⟩ := m
  simp only [get?, toList_modify] at h ⊢
  induction bindings with
  | nil => simp [find?] at h
  | cons b rest ih =>
    obtain ⟨k, w⟩ := b
    simp only [find?, modifyIn] at h ⊢
    cases hcompare : compare key k with
    | lt => simp [hcompare] at h
    | eq =>
      obtain rfl : w = v := by simpa [hcompare] using h
      exact ⟨k, List.mem_cons_self⟩
    | gt =>
      obtain ⟨k', hk'⟩ := ih (by simpa [hcompare] using h)
      exact ⟨k', List.mem_cons_of_mem _ hk'⟩

/-- A value that is replaced by itself changes nothing. -/
theorem modify_self {m : SortedMap κ ν} {key : κ} {v : ν} (h : m.get? key = some v) :
    (m.modify key fun _ => v) = m := by
  obtain ⟨bindings⟩ := m
  suffices hself : modifyIn key (fun _ => v) bindings = bindings from congrArg SortedMap.mk hself
  change (find? key bindings).map Prod.snd = some v at h
  induction bindings with
  | nil => rfl
  | cons b rest ih =>
    obtain ⟨k, w⟩ := b
    simp only [find?, modifyIn] at h ⊢
    cases hcompare : compare key k with
    | lt => rfl
    | eq =>
      obtain rfl : w = v := by simpa [hcompare] using h
      rfl
    | gt => rw [ih (by simpa [hcompare] using h)]

/-- Removing a key undoes a change of its value. -/
theorem erase_modify (m : SortedMap κ ν) (key : κ) (f : ν → ν) :
    (m.modify key f).erase key = m.erase key := by
  obtain ⟨bindings⟩ := m
  suffices herase : eraseFrom key (modifyIn key f bindings) = eraseFrom key bindings from
    congrArg SortedMap.mk herase
  induction bindings with
  | nil => rfl
  | cons b rest ih =>
    obtain ⟨k, v⟩ := b
    cases hcompare : compare key k with
    | lt => simp [modifyIn, eraseFrom, hcompare]
    | eq => simp [modifyIn, eraseFrom, hcompare]
    | gt => simp [modifyIn, eraseFrom, hcompare, ih]

theorem ascendingList_insertInto (hP : OrderedOn P) {key : κ} (hkey : P key) (value : ν)
    {bindings : List (κ × ν)} (h : AscendingList P bindings) :
    AscendingList P (insertInto key value bindings) := by
  induction bindings with
  | nil => exact ascendingList_cons.2 ⟨hkey, by simp, h⟩
  | cons c rest ih =>
    obtain ⟨k, v⟩ := c
    have hk := ascendingList_cons.1 h
    simp only [insertInto]
    cases hlt : compare key k with
    | lt =>
      refine ascendingList_cons.2 ⟨hkey, ?_, h⟩
      intro b hb
      rcases List.mem_cons.1 hb with rfl | hb
      · exact hlt
      · exact hP.lt_trans hkey hk.1 (h.tail.holds b hb) hlt (hk.2.1 b hb)
    | eq => exact ascendingList_cons.2 hk
    | gt =>
      refine ascendingList_cons.2 ⟨hk.1, ?_, ih hk.2.2⟩
      intro b hb
      rcases mem_insertInto hb with rfl | hb | ⟨w, hb⟩
      · exact hP.lt_of_gt hkey hk.1 hlt
      · exact hk.2.1 b hb
      · exact hk.2.1 (b.1, w) hb

theorem eraseFrom_sublist (key : κ) (bindings : List (κ × ν)) :
    (eraseFrom key bindings).Sublist bindings := by
  induction bindings with
  | nil => exact .slnil
  | cons c rest ih =>
    obtain ⟨k, v⟩ := c
    simp only [eraseFrom]
    split
    · exact .refl _
    · exact List.sublist_cons_self _ _
    · exact ih.cons_cons _

theorem ascendingList_eraseFrom (key : κ) {bindings : List (κ × ν)}
    (h : AscendingList P bindings) : AscendingList P (eraseFrom key bindings) :=
  ⟨fun b hb => h.holds b ((eraseFrom_sublist key bindings).subset hb),
    h.increasing.sublist (eraseFrom_sublist key bindings)⟩

/-- Whether bindings ascend depends on their keys only. -/
theorem ascendingList_of_keys {bindings : List (κ × ν)} {others : List (κ × ω)}
    (hkeys : others.map Prod.fst = bindings.map Prod.fst) (h : AscendingList P bindings) :
    AscendingList P others := by
  have holds : ∀ k ∈ bindings.map Prod.fst, P k := by
    intro k hk
    obtain ⟨b, hb, rfl⟩ := List.mem_map.1 hk
    exact h.holds b hb
  have increasing : (bindings.map Prod.fst).Pairwise fun a b => compare a b = .lt :=
    List.pairwise_map.2 h.increasing
  rw [← hkeys] at holds increasing
  exact ⟨fun b hb => holds b.1 (List.mem_map_of_mem hb), List.pairwise_map.1 increasing⟩

theorem ascending_empty : (∅ : SortedMap κ ν).Ascending P := AscendingList.nil

theorem Ascending.insert (hP : OrderedOn P) {m : SortedMap κ ν} (hm : m.Ascending P) {key : κ}
    (hkey : P key) (value : ν) : (m.insert key value).Ascending P :=
  ascendingList_insertInto hP hkey value hm

theorem Ascending.erase {m : SortedMap κ ν} (hm : m.Ascending P) (key : κ) :
    (m.erase key).Ascending P :=
  ascendingList_eraseFrom key hm

theorem Ascending.mapValues {m : SortedMap κ ν} (hm : m.Ascending P) (f : ν → ω) :
    (m.mapValues f).Ascending P :=
  ascendingList_of_keys (by simp [SortedMap.mapValues, Function.comp_def]) hm

theorem Ascending.modify {m : SortedMap κ ν} (hm : m.Ascending P) (key : κ) (f : ν → ν) :
    (m.modify key f).Ascending P :=
  ascendingList_of_keys (m.keys_modify key f) hm

/-! ## What the operations change -/

theorem get?_insert (hP : OrderedOn P) {m : SortedMap κ ν} (hm : m.Ascending P) {key other : κ}
    (hkey : P key) (hother : P other) (value : ν) :
    (m.insert key value).get? other =
      if compare other key = .eq then some value else m.get? other := by
  obtain ⟨bindings⟩ := m
  simp only [get?, toList_insert]
  induction bindings with
  | nil =>
    cases h : compare other key <;> simp [insertInto, find?, h]
  | cons c rest ih =>
    obtain ⟨k, v⟩ := c
    have hk := hm.head
    simp only [insertInto]
    cases h : compare key k with
    | lt =>
      cases ho : compare other key with
      | lt => simp [find?, ho, hP.lt_trans hother hkey hk ho h]
      | eq => simp [find?, ho]
      | gt => simp [find?, ho]
    | eq =>
      rw [hP.congr_right hother hkey hk h]
      cases ho : compare other k <;> simp [find?, ho]
    | gt =>
      have hlt := hP.lt_of_gt hkey hk h
      cases ho : compare other k with
      | lt => simp [find?, ho, hP.lt_trans hother hk hkey ho hlt]
      | eq =>
        have hne : compare other key = .lt := by rw [hP.congr_left hother hk hkey ho, hlt]
        simp [find?, ho, hne]
      | gt => simpa [find?, ho] using ih hm.tail

theorem get?_erase (hP : OrderedOn P) {m : SortedMap κ ν} (hm : m.Ascending P) {key other : κ}
    (hkey : P key) (hother : P other) :
    (m.erase key).get? other = if compare other key = .eq then none else m.get? other := by
  obtain ⟨bindings⟩ := m
  simp only [get?, toList_erase]
  induction bindings with
  | nil => simp [eraseFrom, find?]
  | cons c rest ih =>
    obtain ⟨k, v⟩ := c
    have hk := hm.head
    simp only [eraseFrom]
    cases h : compare key k with
    | lt =>
      by_cases ho : compare other key = .eq
      · have hlt : compare other k = .lt := by rw [hP.congr_left hother hkey hk ho, h]
        simp [find?, ho, hlt]
      · simp [ho]
    | eq =>
      rw [hP.congr_right hother hkey hk h]
      have hrest : compare other k ≠ .gt → find? other rest = none := by
        intro hle
        refine find?_eq_none_of_lt fun b hb => ?_
        have hb' := hm.tail.holds b hb
        cases ho : compare other k with
        | lt => exact hP.lt_trans hother hk hb' ho (hm.head_lt hb)
        | eq => rw [hP.congr_left hother hk hb' ho]; exact hm.head_lt hb
        | gt => exact absurd ho hle
      cases ho : compare other k with
      | lt => simp [find?, ho, hrest (by simp [ho])]
      | eq => simp [hrest (by simp [ho])]
      | gt => simp [find?, ho]
    | gt =>
      have hlt := hP.lt_of_gt hkey hk h
      cases ho : compare other k with
      | lt => simp [find?, ho]
      | eq =>
        have hne : compare other key = .lt := by rw [hP.congr_left hother hk hkey ho, hlt]
        simp [find?, ho, hne]
      | gt => simpa [find?, ho] using ih hm.tail

/-- A key that is not bound is not bound after another one has been removed. -/
theorem get?_erase_eq_none (hP : OrderedOn P) {m : SortedMap κ ν} (hm : m.Ascending P)
    {key other : κ} (hkey : P key) (hother : P other) (hnone : m.get? other = none) :
    (m.erase key).get? other = none := by
  rw [get?_erase hP hm hkey hother, hnone, ite_self]

/-- What is found after a value has been put under another key. -/
theorem get?_insert_erase (hP : OrderedOn P) {m : SortedMap κ ν} (hm : m.Ascending P)
    {key new other : κ} (hkey : P key) (hnew : P new) (hother : P other) (value : ν) :
    ((m.erase key).insert new value).get? other =
      if compare other new = .eq then some value
      else if compare other key = .eq then none else m.get? other := by
  rw [get?_insert hP (hm.erase key) hnew hother, get?_erase hP hm hkey hother]

/-- What is found after a value has changed does not depend on the order of the bindings. -/
theorem find?_modifyIn (hP : OrderedOn P) {bindings : List (κ × ν)}
    (hbindings : ∀ b ∈ bindings, P b.1) {key other : κ} (hkey : P key) (hother : P other)
    (f : ν → ν) :
    (find? other (modifyIn key f bindings)).map Prod.snd =
      if compare other key = .eq then ((find? other bindings).map Prod.snd).map f
      else (find? other bindings).map Prod.snd := by
  induction bindings with
  | nil => simp [modifyIn, find?]
  | cons c rest ih =>
    obtain ⟨k, v⟩ := c
    have hk : P k := hbindings (k, v) (by simp)
    simp only [modifyIn]
    cases h : compare key k with
    | lt =>
      by_cases ho : compare other key = .eq
      · have hlt : compare other k = .lt := by rw [hP.congr_left hother hkey hk ho, h]
        simp [find?, ho, hlt]
      · simp [ho]
    | eq =>
      rw [hP.congr_right hother hkey hk h]
      cases ho : compare other k <;> simp [find?, ho]
    | gt =>
      have hlt := hP.lt_of_gt hkey hk h
      cases ho : compare other k with
      | lt => simp [find?, ho]
      | eq =>
        have hne : compare other key = .lt := by rw [hP.congr_left hother hk hkey ho, hlt]
        simp [find?, ho, hne]
      | gt => simpa [find?, ho] using ih fun b hb => hbindings b (by simp [hb])

theorem get?_modify (hP : OrderedOn P) {m : SortedMap κ ν} (hm : m.Ascending P) {key other : κ}
    (hkey : P key) (hother : P other) (f : ν → ν) :
    (m.modify key f).get? other =
      if compare other key = .eq then (m.get? other).map f else m.get? other :=
  find?_modifyIn hP hm.holds hkey hother f

/-! ## Keys that compare as equal only if they are equal -/

section Lawful

variable [Std.TransOrd κ] [Std.LawfulEqOrd κ] [DecidableEq κ] {m : SortedMap κ ν}

theorem get?_insert_eq (hm : m.Ascending fun _ => True) (key other : κ) (value : ν) :
    (m.insert key value).get? other = if other = key then some value else m.get? other := by
  rw [get?_insert orderedOn_all hm trivial trivial]
  simp only [Std.LawfulEqCmp.compare_eq_iff_eq]

theorem get?_erase_eq (hm : m.Ascending fun _ => True) (key other : κ) :
    (m.erase key).get? other = if other = key then none else m.get? other := by
  rw [get?_erase orderedOn_all hm trivial trivial]
  simp only [Std.LawfulEqCmp.compare_eq_iff_eq]

theorem get?_modify_eq (m : SortedMap κ ν) (key other : κ) (f : ν → ν) :
    (m.modify key f).get? other = if other = key then (m.get? other).map f else m.get? other := by
  have hmodify : (m.modify key f).get? other =
      if compare other key = .eq then (m.get? other).map f else m.get? other :=
    find?_modifyIn orderedOn_all (fun _ _ => trivial) trivial trivial f
  simpa only [Std.LawfulEqCmp.compare_eq_iff_eq] using hmodify

omit [DecidableEq κ] in
/-- Bindings are what the map finds. -/
theorem mem_toList_iff (hm : m.Ascending fun _ => True) {key : κ} {value : ν} :
    (key, value) ∈ m.toList ↔ m.get? key = some value := by
  refine ⟨fun h => get?_of_mem orderedOn_all hm h, fun h => ?_⟩
  obtain ⟨k, hk, hcompare⟩ := (get?_eq_some_iff orderedOn_all hm trivial).1 h
  exact Std.LawfulEqCmp.eq_of_compare hcompare ▸ hk

omit [DecidableEq κ] in
/-- Values are what the map finds somewhere. -/
theorem mem_values_iff (hm : m.Ascending fun _ => True) {value : ν} :
    value ∈ m.values ↔ ∃ key, m.get? key = some value := by
  refine List.mem_map.trans ⟨?_, ?_⟩
  · rintro ⟨⟨key, _⟩, hmem, rfl⟩
    exact ⟨key, (mem_toList_iff hm).1 hmem⟩
  · rintro ⟨key, hkey⟩
    exact ⟨(key, value), (mem_toList_iff hm).2 hkey, rfl⟩

omit [DecidableEq κ] in
/-- Maps that find the same are the same. -/
theorem ext_of_get? {m' : SortedMap κ ν} (hm : m.Ascending fun _ => True)
    (hm' : m'.Ascending fun _ => True) (h : ∀ k, m.get? k = m'.get? k) : m = m' := by
  refine Ascending.ext orderedOn_all hm hm' fun b => ?_
  rw [mem_toList_iff hm, mem_toList_iff hm', h]

end Lawful

/-! ## Counting values -/

/-- How many values satisfy a condition. -/
def count (q : ν → Bool) (m : SortedMap κ ν) : Nat := m.toList.countP fun b => q b.2

/-- One for a value that satisfies a condition, zero for any other and for none. -/
def countOne (q : ν → Bool) : Option ν → Nat
  | some v => if q v then 1 else 0
  | none => 0

theorem count_insert (q : ν → Bool) (m : SortedMap κ ν) (key : κ) (value : ν) :
    (m.insert key value).count q + countOne q (m.get? key) = m.count q + countOne q (some value) := by
  obtain ⟨bindings⟩ := m
  simp only [count, get?, toList_insert]
  induction bindings with
  | nil => simp [insertInto, find?, countOne, List.countP_cons]
  | cons b rest ih =>
    obtain ⟨k, v⟩ := b
    simp only [insertInto, find?]
    cases compare key k with
    | lt => simp [countOne, List.countP_cons]
    | eq => simp only [List.countP_cons, Option.map_some, countOne]; omega
    | gt => simp only [List.countP_cons] at ih ⊢; omega

theorem count_erase (q : ν → Bool) (m : SortedMap κ ν) (key : κ) :
    (m.erase key).count q + countOne q (m.get? key) = m.count q := by
  obtain ⟨bindings⟩ := m
  simp only [count, get?, toList_erase]
  induction bindings with
  | nil => simp [eraseFrom, find?, countOne]
  | cons b rest ih =>
    obtain ⟨k, v⟩ := b
    simp only [eraseFrom, find?]
    cases compare key k with
    | lt => simp [countOne]
    | eq => simp only [List.countP_cons, Option.map_some, countOne]
    | gt => simp only [List.countP_cons] at ih ⊢; omega

/-! ## Keys -/

/-- Two maps with the same keys that answer alike are the same map. -/
theorem ext_get? (hP : OrderedOn P) {m m' : SortedMap κ ν} (hm : m.Ascending P)
    (hkeys : m'.keys = m.keys) (hget : ∀ k, P k → m'.get? k = m.get? k) : m' = m := by
  have hm' : m'.Ascending P := ascendingList_of_keys hkeys hm
  have hlength : m'.toList.length = m.toList.length := by simpa [keys] using congrArg List.length hkeys
  have hlist : m'.toList = m.toList := by
    refine List.ext_getElem hlength fun i hi hi' => ?_
    have hkey : m'.toList[i].1 = m.toList[i].1 := by
      have hi := congrArg (·[i]?) hkeys
      simpa [keys, hi', hlength] using hi
    have hv' : m'.get? m'.toList[i].1 = some m'.toList[i].2 :=
      get?_of_mem hP hm' (List.getElem_mem hi)
    have hv : m.get? m.toList[i].1 = some m.toList[i].2 := get?_of_mem hP hm (List.getElem_mem hi')
    rw [hget _ (hm'.holds _ (List.getElem_mem hi)), hkey, hv, Option.some.injEq] at hv'
    exact Prod.ext hkey hv'.symm
  cases m; cases m'; simpa using hlist

/-- A new key is one more binding. -/
theorem toList_insert_perm {m : SortedMap κ ν} {key : κ} (hnew : m.get? key = none) (value : ν) :
    (m.insert key value).toList.Perm ((key, value) :: m.toList) := by
  obtain ⟨bindings⟩ := m
  simp only [get?, Option.map_eq_none_iff] at hnew
  simp only [toList_insert]
  induction bindings with
  | nil => exact .refl _
  | cons c rest ih =>
    obtain ⟨k, v⟩ := c
    simp only [find?] at hnew
    simp only [insertInto]
    cases hcompare : compare key k with
    | lt => exact .refl _
    | eq => simp [hcompare] at hnew
    | gt =>
      rw [hcompare] at hnew
      exact ((ih hnew).cons _).trans (.swap _ _ _)

theorem keys_insert_perm {m : SortedMap κ ν} {key : κ} (hnew : m.get? key = none) (value : ν) :
    (m.insert key value).keys.Perm (key :: m.keys) :=
  (toList_insert_perm hnew value).map Prod.fst

/-- Erasing takes out the binding that is found. -/
theorem perm_cons_eraseFrom {key : κ} {bindings : List (κ × ν)} {b : κ × ν}
    (h : find? key bindings = some b) : bindings.Perm (b :: eraseFrom key bindings) := by
  induction bindings with
  | nil => cases h
  | cons c rest ih =>
    obtain ⟨k, v⟩ := c
    simp only [find?] at h
    simp only [eraseFrom]
    cases hcompare : compare key k with
    | lt => simp [hcompare] at h
    | eq =>
      obtain rfl : (k, v) = b := by simpa [hcompare] using h
      exact .refl _
    | gt =>
      rw [hcompare] at h
      exact ((ih h).cons _).trans (.swap _ _ _)

/-- A key that is not greater than the first one is smaller than the others. -/
theorem AscendingList.lt_of_le_head (hP : OrderedOn P) {key k : κ} (hkey : P key) {v : ν}
    {rest : List (κ × ν)} (h : AscendingList P ((k, v) :: rest)) (hle : compare key k ≠ .gt)
    {b : κ × ν} (hb : b ∈ rest) : compare key b.1 = .lt := by
  have hb' := h.tail.holds b hb
  cases hcompare : compare key k with
  | lt => exact hP.lt_trans hkey h.head hb' hcompare (h.head_lt hb)
  | eq => rw [hP.congr_left hkey h.head hb' hcompare]; exact h.head_lt hb
  | gt => exact absurd hcompare hle

/-- Erasing removes the bindings of keys that compare as equal. -/
theorem eraseFrom_eq_filter (hP : OrderedOn P) {key : κ} (hkey : P key) {bindings : List (κ × ν)}
    (h : AscendingList P bindings) :
    eraseFrom key bindings = bindings.filter fun b => decide (compare b.1 key ≠ .eq) := by
  have hkept {bindings : List (κ × ν)} (h : AscendingList P bindings)
      (hlt : ∀ b ∈ bindings, compare key b.1 = .lt) :
      bindings.filter (fun b => decide (compare b.1 key ≠ .eq)) = bindings := by
    refine List.filter_eq_self.2 fun b hb => ?_
    simp [hP.gt_of_lt hkey (h.holds b hb) (hlt b hb)]
  induction bindings with
  | nil => rfl
  | cons c rest ih =>
    obtain ⟨k, v⟩ := c
    have hk := h.head
    simp only [eraseFrom]
    cases hcompare : compare key k with
    | lt =>
      refine (hkept h fun b hb => ?_).symm
      rcases List.mem_cons.1 hb with rfl | hb
      · exact hcompare
      · exact h.lt_of_le_head hP hkey (by simp [hcompare]) hb
    | eq =>
      have hself := hP.symm hkey hk hcompare
      rw [List.filter_cons_of_neg (by simp [hself]),
        hkept h.tail fun b hb => h.lt_of_le_head hP hkey (by simp [hcompare]) hb]
    | gt =>
      have hself := hP.lt_of_gt hkey hk hcompare
      simp [hself, ih h.tail]

/-- Changing the value of a key changes those of keys that compare as equal. -/
theorem modifyIn_eq_map (hP : OrderedOn P) {key : κ} (hkey : P key) (f : ν → ν)
    {bindings : List (κ × ν)} (h : AscendingList P bindings) :
    modifyIn key f bindings =
      bindings.map fun b => (b.1, if compare b.1 key = .eq then f b.2 else b.2) := by
  have hkept {bindings : List (κ × ν)} (h : AscendingList P bindings)
      (hlt : ∀ b ∈ bindings, compare key b.1 = .lt) :
      (bindings.map fun b => (b.1, if compare b.1 key = .eq then f b.2 else b.2)) = bindings := by
    refine (List.map_congr_left fun b hb => ?_).trans (List.map_id bindings)
    simp [hP.gt_of_lt hkey (h.holds b hb) (hlt b hb)]
  induction bindings with
  | nil => rfl
  | cons c rest ih =>
    obtain ⟨k, v⟩ := c
    have hk := h.head
    simp only [modifyIn]
    cases hcompare : compare key k with
    | lt =>
      refine (hkept h fun b hb => ?_).symm
      rcases List.mem_cons.1 hb with rfl | hb
      · exact hcompare
      · exact h.lt_of_le_head hP hkey (by simp [hcompare]) hb
    | eq =>
      have hself := hP.symm hkey hk hcompare
      rw [List.map_cons, if_pos hself,
        hkept h.tail fun b hb => h.lt_of_le_head hP hkey (by simp [hcompare]) hb]
    | gt =>
      have hself := hP.lt_of_gt hkey hk hcompare
      simp [hself, ih h.tail]

/-- Erasing a key removes what compares as equal to it. -/
theorem keys_erase (hP : OrderedOn P) {m : SortedMap κ ν} (hm : m.Ascending P) {key : κ}
    (hkey : P key) : (m.erase key).keys = m.keys.filter fun k => decide (compare k key ≠ .eq) := by
  rw [keys, toList_erase, eraseFrom_eq_filter hP hkey hm, keys, List.filter_map]
  rfl

/-- No two bindings have keys that compare as equal. -/
theorem AscendingList.compare_eq_iff (hP : OrderedOn P) {bindings : List (κ × ν)}
    (h : AscendingList P bindings) {b c : κ × ν} (hb : b ∈ bindings) (hc : c ∈ bindings) :
    compare b.1 c.1 = .eq ↔ b.1 = c.1 := by
  have hfits := h.holds b hb
  constructor
  · intro heq
    have hself := (find?_eq_some_iff hP hfits h).2 ⟨hb, hP.refl hfits⟩
    have hother := (find?_eq_some_iff hP hfits h).2 ⟨hc, heq⟩
    rw [Option.some.inj (hself.symm.trans hother)]
  · intro heq
    rw [← heq]
    exact hP.refl hfits

theorem Ascending.nodup_keys (hP : OrderedOn P) {m : SortedMap κ ν} (hm : m.Ascending P) :
    m.keys.Nodup := by
  refine List.pairwise_map.2 (hm.increasing.imp_of_mem fun {b c} hb hc hlt heq => ?_)
  rw [(hm.compare_eq_iff hP hb hc).2 heq] at hlt
  cases hlt

section Members

variable [DecidableEq κ]

/-- Erasing a key that is there takes out its binding. -/
theorem toList_erase_of_mem (hP : OrderedOn P) {m : SortedMap κ ν} (hm : m.Ascending P) {key : κ}
    {v : ν} (h : (key, v) ∈ m.toList) :
    (m.erase key).toList = m.toList.filter fun b => decide (b.1 ≠ key) := by
  rw [toList_erase, eraseFrom_eq_filter hP (hm.holds _ h) hm]
  refine List.filter_congr fun b hb => ?_
  simp only [ne_eq, hm.compare_eq_iff hP hb h]

/-- A key that is there has one binding, beside those of the other keys. -/
theorem perm_cons_filter_of_mem (hP : OrderedOn P) {m : SortedMap κ ν} (hm : m.Ascending P) {key : κ}
    {v : ν} (h : (key, v) ∈ m.toList) :
    m.toList.Perm ((key, v) :: m.toList.filter fun b => decide (b.1 ≠ key)) := by
  have hkey := hm.holds _ h
  rw [← toList_erase_of_mem hP hm h]
  exact perm_cons_eraseFrom ((find?_eq_some_iff hP hkey hm).2 ⟨h, hP.refl hkey⟩)

/-- Changing the value of a key that is there changes its binding. -/
theorem toList_modify_of_mem (hP : OrderedOn P) {m : SortedMap κ ν} (hm : m.Ascending P) {key : κ}
    {v : ν} (h : (key, v) ∈ m.toList) (f : ν → ν) :
    (m.modify key f).toList = m.toList.map fun b => (b.1, if b.1 = key then f b.2 else b.2) := by
  rw [toList_modify, modifyIn_eq_map hP (hm.holds _ h) f hm]
  refine List.map_congr_left fun b hb => ?_
  simp only [hm.compare_eq_iff hP hb h]

end Members

/-- Which keys a map with one more binding has depends on its keys only. -/
theorem keys_insert_congr {m : SortedMap κ ν} {m' : SortedMap κ ω} (h : m'.keys = m.keys)
    (key : κ) (v : ν) (w : ω) : (m'.insert key w).keys = (m.insert key v).keys := by
  obtain ⟨bindings⟩ := m
  obtain ⟨others⟩ := m'
  simp only [keys, toList_insert] at h ⊢
  induction bindings generalizing others with
  | nil => simp_all [insertInto]
  | cons b rest ih =>
    obtain ⟨k, v⟩ := b
    cases others with
    | nil => simp at h
    | cons c others =>
      obtain ⟨k', w⟩ := c
      simp only [List.map_cons, List.cons.injEq] at h
      obtain ⟨rfl, h⟩ := h
      simp only [insertInto]
      cases compare key k' <;> simp [h, ih _ h]

theorem keys_erase_congr {m : SortedMap κ ν} {m' : SortedMap κ ω} (h : m'.keys = m.keys)
    (key : κ) : (m'.erase key).keys = (m.erase key).keys := by
  obtain ⟨bindings⟩ := m
  obtain ⟨others⟩ := m'
  simp only [keys, toList_erase] at h ⊢
  induction bindings generalizing others with
  | nil => simp_all [eraseFrom]
  | cons b rest ih =>
    obtain ⟨k, v⟩ := b
    cases others with
    | nil => simp at h
    | cons c others =>
      obtain ⟨k', w⟩ := c
      simp only [List.map_cons, List.cons.injEq] at h
      obtain ⟨rfl, h⟩ := h
      simp only [eraseFrom]
      cases compare key k' <;> simp [h, ih _ h]

/-- Which key answers to another one depends on the keys only. -/
theorem getKey?_congr {m : SortedMap κ ν} {m' : SortedMap κ ω} (h : m'.keys = m.keys) (key : κ) :
    m'.getKey? key = m.getKey? key := by
  obtain ⟨bindings⟩ := m
  obtain ⟨others⟩ := m'
  simp only [keys, getKey?] at h ⊢
  induction bindings generalizing others with
  | nil => simp_all [find?]
  | cons b rest ih =>
    obtain ⟨k, v⟩ := b
    cases others with
    | nil => simp at h
    | cons c others =>
      obtain ⟨k', w⟩ := c
      simp only [List.map_cons, List.cons.injEq] at h
      obtain ⟨rfl, h⟩ := h
      simp only [find?]
      cases compare key k' <;> simp [ih _ h]

/-- Which keys are bound depends on the keys only. -/
theorem isSome_get?_congr {m : SortedMap κ ν} {m' : SortedMap κ ω} (h : m'.keys = m.keys)
    (key : κ) : (m'.get? key).isSome = (m.get? key).isSome := by
  have hkey := congrArg Option.isSome (getKey?_congr h key)
  simpa [get?, getKey?] using hkey

theorem nextKey?_congr {m : SortedMap κ ν} {m' : SortedMap κ ω} (h : m'.keys = m.keys)
    (after : Option κ) : m'.nextKey? after = m.nextKey? after := by
  obtain ⟨bindings⟩ := m
  obtain ⟨others⟩ := m'
  simp only [keys] at h
  cases after with
  | none => simpa [nextKey?] using congrArg List.head? h
  | some key =>
    simp only [nextKey?]
    induction bindings generalizing others with
    | nil => simp_all [keyAfter?]
    | cons b rest ih =>
      obtain ⟨k, v⟩ := b
      cases others with
      | nil => simp at h
      | cons c others =>
        obtain ⟨k', w⟩ := c
        simp only [List.map_cons, List.cons.injEq] at h
        obtain ⟨rfl, h⟩ := h
        simp only [keyAfter?]
        cases compare key k' with
        | lt => rfl
        | eq => simpa using congrArg List.head? h
        | gt => exact ih _ h

/-- After the last key of a first part comes the first key of the rest. -/
theorem nextKey?_of_split (hP : OrderedOn P) {m : SortedMap κ ν} (hm : m.Ascending P)
    {passed rest : List (κ × ν)} (hsplit : m.toList = passed ++ rest) :
    m.nextKey? (passed.getLast?.map Prod.fst) = rest.head?.map Prod.fst := by
  rcases List.eq_nil_or_concat passed with rfl | ⟨front, b, rfl⟩
  · simp [nextKey?, hsplit]
  rw [List.concat_eq_append, List.append_assoc, List.singleton_append] at hsplit
  have hb : b ∈ m.toList := by simp [hsplit]
  have hgreater : ∀ c ∈ front, compare b.1 c.1 = .gt := by
    intro c hc
    have hc' : c ∈ m.toList := by simp [hsplit, hc]
    have hlt := hm.increasing
    rw [hsplit, List.pairwise_append] at hlt
    exact hP.gt_of_lt (hm.holds c hc') (hm.holds b hb) (hlt.2.2 c hc b (by simp))
  have hkeyAfter : keyAfter? b.1 (front ++ b :: rest) = rest.head?.map Prod.fst := by
    clear hsplit
    induction front with
    | nil => simp [keyAfter?, hP.refl (hm.holds b hb)]
    | cons c front ih =>
      simp only [List.cons_append, keyAfter?, hgreater c (by simp)]
      exact ih fun d hd => hgreater d (by simp [hd])
  simp [nextKey?, hsplit, hkeyAfter]

omit [Ord κ] in
theorem size_eq_of_keys {m : SortedMap κ ν} {m' : SortedMap κ ω} (h : m'.keys = m.keys) :
    m'.size = m.size := by
  simpa [keys, size] using congrArg List.length h

/-! ## Changing every value -/

section MapValues

variable (f : ν → ω)

omit [Ord κ] in
theorem keys_mapValues (m : SortedMap κ ν) : (m.mapValues f).keys = m.keys := by
  simp [mapValues, keys]

theorem contains_mapValues (m : SortedMap κ ν) (key : κ) :
    (m.mapValues f).contains key = m.contains key := by
  simp [contains, get?_mapValues]

theorem mapValues_insert (m : SortedMap κ ν) (key : κ) (value : ν) :
    (m.insert key value).mapValues f = (m.mapValues f).insert key (f value) := by
  obtain ⟨bindings⟩ := m
  simp only [mapValues, insert, mk.injEq]
  induction bindings with
  | nil => rfl
  | cons b rest ih =>
    obtain ⟨k, v⟩ := b
    simp only [List.map_cons, insertInto]
    cases compare key k <;> simp [ih]

theorem mapValues_erase (m : SortedMap κ ν) (key : κ) :
    (m.erase key).mapValues f = (m.mapValues f).erase key := by
  obtain ⟨bindings⟩ := m
  simp only [mapValues, erase, mk.injEq]
  induction bindings with
  | nil => rfl
  | cons b rest ih =>
    obtain ⟨k, v⟩ := b
    simp only [List.map_cons, eraseFrom]
    cases compare key k <;> simp [ih]

theorem mapValues_modify (m : SortedMap κ ν) (key : κ) (value : ν) :
    (m.modify key fun _ => value).mapValues f = (m.mapValues f).modify key fun _ => f value := by
  obtain ⟨bindings⟩ := m
  simp only [mapValues, modify, mk.injEq]
  induction bindings with
  | nil => rfl
  | cons b rest ih =>
    obtain ⟨k, v⟩ := b
    simp only [List.map_cons, modifyIn]
    cases compare key k <;> simp [ih]

end MapValues

/-! ## Many bindings at once -/

/-- Gives new values to keys that are bound. -/
def overwrite (m : SortedMap κ ν) (values : List (κ × ν)) : SortedMap κ ν :=
  values.foldl (fun m b => m.modify b.1 fun _ => b.2) m

/-- Binds one key after the other. -/
def insertAll (m : SortedMap κ ν) (values : List (κ × ν)) : SortedMap κ ν :=
  values.foldl (fun m b => m.insert b.1 b.2) m

/-- Keys of a class, none of which compares as equal to a later one. -/
structure Distinct (P : κ → Prop) (values : List (κ × ν)) : Prop where
  holds : ∀ b ∈ values, P b.1
  distinct : values.Pairwise fun a b => compare a.1 b.1 ≠ .eq

theorem keys_insertAll_congr {α : Type} (key : α → κ) (value : α → ν) (other : α → ω)
    (values : List α) {m : SortedMap κ ν} {m' : SortedMap κ ω} (h : m'.keys = m.keys) :
    (m'.insertAll (values.map fun a => (key a, other a))).keys =
      (m.insertAll (values.map fun a => (key a, value a))).keys := by
  induction values generalizing m m' with
  | nil => exact h
  | cons a rest ih => exact ih (keys_insert_congr h (key a) (value a) (other a))

theorem Distinct.tail {b : κ × ν} {rest : List (κ × ν)} (h : Distinct P (b :: rest)) :
    Distinct P rest :=
  ⟨fun c hc => h.holds c (by simp [hc]), h.distinct.of_cons⟩

theorem Distinct.head_ne {b c : κ × ν} {rest : List (κ × ν)} (h : Distinct P (b :: rest))
    (hc : c ∈ rest) : compare b.1 c.1 ≠ .eq :=
  List.rel_of_pairwise_cons h.distinct hc

theorem keys_overwrite (m : SortedMap κ ν) (values : List (κ × ν)) :
    (m.overwrite values).keys = m.keys := by
  induction values generalizing m with
  | nil => rfl
  | cons b rest ih => exact (ih _).trans (m.keys_modify b.1 _)

theorem Ascending.overwrite {m : SortedMap κ ν} (hm : m.Ascending P) (values : List (κ × ν)) :
    (m.overwrite values).Ascending P :=
  ascendingList_of_keys (m.keys_overwrite values) hm

theorem get?_overwrite_of_ne (hP : OrderedOn P) {m : SortedMap κ ν} (hm : m.Ascending P)
    {values : List (κ × ν)} (hvalues : ∀ b ∈ values, P b.1) {key : κ} (hkey : P key)
    (hne : ∀ b ∈ values, compare key b.1 ≠ .eq) : (m.overwrite values).get? key = m.get? key := by
  induction values generalizing m with
  | nil => rfl
  | cons b rest ih =>
    have hstep := ih (hm.modify b.1 fun _ => b.2) (fun c hc => hvalues c (by simp [hc]))
      (fun c hc => hne c (by simp [hc]))
    rw [get?_modify hP hm (hvalues b (by simp)) hkey, if_neg (hne b (by simp))] at hstep
    exact hstep

theorem get?_overwrite_of_mem (hP : OrderedOn P) {m : SortedMap κ ν} (hm : m.Ascending P)
    {values : List (κ × ν)} (hvalues : Distinct P values) {b : κ × ν} (hb : b ∈ values)
    (hbound : (m.get? b.1).isSome) : (m.overwrite values).get? b.1 = some b.2 := by
  induction values generalizing m with
  | nil => simp at hb
  | cons c rest ih =>
    have hc : P c.1 := hvalues.holds c (by simp)
    have hm' := hm.modify c.1 fun _ => c.2
    rcases List.mem_cons.1 hb with rfl | hrest
    · refine (get?_overwrite_of_ne hP hm' hvalues.tail.holds hc
        fun d hd => hvalues.head_ne hd).trans ?_
      rw [get?_modify hP hm hc hc, if_pos (hP.refl hc)]
      obtain ⟨v, hv⟩ := Option.isSome_iff_exists.1 hbound
      simp [hv]
    · refine ih hm' hvalues.tail hrest ?_
      have hb' : P b.1 := hvalues.holds b (by simp [hrest])
      rw [get?_modify hP hm hc hb']
      split <;> simpa using hbound

theorem Ascending.insertAll (hP : OrderedOn P) {m : SortedMap κ ν} (hm : m.Ascending P)
    {values : List (κ × ν)} (hvalues : ∀ b ∈ values, P b.1) : (m.insertAll values).Ascending P := by
  induction values generalizing m with
  | nil => exact hm
  | cons b rest ih =>
    exact ih (hm.insert hP (hvalues b (by simp)) b.2) fun c hc => hvalues c (by simp [hc])

theorem get?_insertAll_of_ne (hP : OrderedOn P) {m : SortedMap κ ν} (hm : m.Ascending P)
    {values : List (κ × ν)} (hvalues : ∀ b ∈ values, P b.1) {key : κ} (hkey : P key)
    (hne : ∀ b ∈ values, compare key b.1 ≠ .eq) : (m.insertAll values).get? key = m.get? key := by
  induction values generalizing m with
  | nil => rfl
  | cons b rest ih =>
    have hb := hvalues b (by simp)
    have hstep := ih (hm.insert hP hb b.2) (fun c hc => hvalues c (by simp [hc]))
      (fun c hc => hne c (by simp [hc]))
    rw [get?_insert hP hm hb hkey, if_neg (hne b (by simp))] at hstep
    exact hstep

theorem get?_insertAll_of_mem (hP : OrderedOn P) {m : SortedMap κ ν} (hm : m.Ascending P)
    {values : List (κ × ν)} (hvalues : Distinct P values) {b : κ × ν} (hb : b ∈ values) :
    (m.insertAll values).get? b.1 = some b.2 := by
  induction values generalizing m with
  | nil => simp at hb
  | cons c rest ih =>
    have hc : P c.1 := hvalues.holds c (by simp)
    have hm' := hm.insert hP hc c.2
    rcases List.mem_cons.1 hb with rfl | hrest
    · refine (get?_insertAll_of_ne hP hm' hvalues.tail.holds hc
        fun d hd => hvalues.head_ne hd).trans ?_
      rw [get?_insert hP hm hc hc, if_pos (hP.refl hc)]
    · exact ih hm' hvalues.tail hrest

/-- New keys are added to the bindings that are there. -/
theorem mem_insertAll_of_new (hP : OrderedOn P) {m : SortedMap κ ν} (hm : m.Ascending P)
    {values : List (κ × ν)} (hvalues : Distinct P values)
    (hnew : ∀ b ∈ values, m.get? b.1 = none) {b : κ × ν} :
    b ∈ (m.insertAll values).toList ↔ b ∈ values ∨ b ∈ m.toList := by
  induction values generalizing m with
  | nil => simp [insertAll]
  | cons c rest ih =>
    have hc : P c.1 := hvalues.holds c (by simp)
    have hfirst : b ∈ insertInto c.1 c.2 m.toList ↔ b = c ∨ b ∈ m.toList :=
      mem_insertInto_of_new (Option.map_eq_none_iff.1 (hnew c (by simp)))
    have hrest : ∀ d ∈ rest, (m.insert c.1 c.2).get? d.1 = none := by
      intro d hd
      have hd' : P d.1 := hvalues.tail.holds d hd
      rw [get?_insert hP hm hc hd', if_neg fun heq => hvalues.head_ne hd (hP.symm hd' hc heq)]
      exact hnew d (by simp [hd])
    have hstep := ih (hm.insert hP hc c.2) hvalues.tail hrest
    show b ∈ ((m.insert c.1 c.2).insertAll rest).toList ↔ _
    rw [hstep, List.mem_cons]
    show b ∈ rest ∨ b ∈ insertInto c.1 c.2 m.toList ↔ _
    rw [hfirst]
    exact or_left_comm.trans or_assoc.symm

end SortedMap

end PageDb
