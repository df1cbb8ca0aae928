import ManifestUpkeep.Toml.Item

/-!
What each change of a table's entries does to the look-up of names and to their order.
-/
namespace ManifestUpkeep.Toml.Entries

@[simp] theorem get?_nil {name : String} : get? name [] = none := rfl

theorem get?_cons {name : String} {key : Key} {item : Item} {rest : Entries} :
    get? name ((key, item) :: rest) = if key.name = name then some item else get? name rest := rfl

theorem get?_append {name : String} {xs ys : Entries} :
    get? name (xs ++ ys) = (get? name xs).or (get? name ys) := by
  induction xs with
  | nil => rfl
  | cons e xs ih =>
    obtain ⟨key, item⟩ := e
    rw [List.cons_append, get?_cons, get?_cons, ih]
    split <;> rfl

/-- A name has an item exactly if it is one of the names. -/
theorem get?_isSome_iff {name : String} {entries : Entries} :
    (get? name entries).isSome ↔ name ∈ names entries := by
  induction entries with
  | nil => simp [names]
  | cons e rest ih =>
    obtain ⟨key, item⟩ := e
    by_cases h : key.name = name
    · simp [get?_cons, names, h]
    · simpa [get?_cons, names, h, Ne.symm h] using ih

theorem get?_eq_none_iff {name : String} {entries : Entries} :
    get? name entries = none ↔ name ∉ names entries := by
  rw [← get?_isSome_iff, Option.not_isSome_iff_eq_none]

theorem get?_of_front {name : String} {key : Key} {item : Item} {front rest : Entries}
    (hfree : get? name front = none) (hk : key.name = name) :
    get? name (front ++ (key, item) :: rest) = some item := by
  rw [get?_append, hfree, get?_cons, if_pos hk]
  rfl

theorem modify_of_front {name : String} {key : Key} {item : Item} {front rest : Entries}
    (hfree : get? name front = none) (hk : key.name = name) (f : Item → Item) :
    modify name f (front ++ (key, item) :: rest) = front ++ (key, f item) :: rest := by
  induction front with
  | nil => rw [List.nil_append, List.nil_append, modify, if_pos hk]
  | cons e front ih =>
    obtain ⟨other, old⟩ := e
    rw [get?_cons] at hfree
    split at hfree
    · cases hfree
    · next hother => rw [List.cons_append, modify, if_neg hother, ih hfree, List.cons_append]

theorem erase_of_front {name : String} {key : Key} {item : Item} {front rest : Entries}
    (hfree : get? name front = none) (hk : key.name = name) :
    erase name (front ++ (key, item) :: rest) = front ++ rest := by
  induction front with
  | nil => rw [List.nil_append, List.nil_append, erase, if_pos hk]
  | cons e front ih =>
    obtain ⟨other, old⟩ := e
    rw [get?_cons] at hfree
    split at hfree
    · cases hfree
    · next hother => rw [List.cons_append, erase, if_neg hother, ih hfree, List.cons_append]

/-- An item that is found stands behind entries with other names. -/
theorem exists_front {name : String} {item : Item} {entries : Entries}
    (h : get? name entries = some item) :
    ∃ front key rest, entries = front ++ (key, item) :: rest ∧ key.name = name ∧
      get? name front = none := by
  induction entries with
  | nil => cases h
  | cons e rest ih =>
    obtain ⟨key, old⟩ := e
    rw [get?_cons] at h
    split at h
    · next hk =>
      cases h
      exact ⟨[], key, rest, rfl, hk, rfl⟩
    · next hk =>
      obtain ⟨front, key', rest', rfl, hk', hfree⟩ := ih h
      refine ⟨(key, old) :: front, key', rest', rfl, hk', ?_⟩
      rw [get?_cons, if_neg hk, hfree]

theorem mem_of_get? {name : String} {item : Item} {entries : Entries}
    (h : get? name entries = some item) : ∃ key, key.name = name ∧ (key, item) ∈ entries := by
  obtain ⟨front, key, rest, rfl, hk, -⟩ := exists_front h
  exact ⟨key, hk, by simp⟩

/-- Under different names an entry is what is found under its name. -/
theorem get?_of_mem {key : Key} {item : Item} {entries : Entries} (hn : (names entries).Nodup)
    (h : (key, item) ∈ entries) : get? key.name entries = some item := by
  induction entries with
  | nil => simp at h
  | cons e rest ih =>
    obtain ⟨k, old⟩ := e
    simp only [names, List.map_cons, List.nodup_cons, List.mem_map, not_exists, not_and] at hn
    rcases List.mem_cons.1 h with h | h
    · cases h
      simp [get?_cons]
    · rw [get?_cons, if_neg fun hk => hn.1 _ h hk.symm]
      exact ih hn.2 h

/-- An entry of a changed table is an entry of the table before, or the changed one. -/
theorem mem_modify {name : String} {f : Item → Item} {entries : Entries} {e : Key × Item}
    (h : e ∈ modify name f entries) :
    e ∈ entries ∨ ∃ old, (e.1, old) ∈ entries ∧ e.2 = f old := by
  induction entries with
  | nil => simp [modify] at h
  | cons first rest ih =>
    obtain ⟨key, old⟩ := first
    by_cases hk : key.name = name
    · simp only [modify, hk, if_true, List.mem_cons] at h
      rcases h with rfl | h
      · exact .inr ⟨old, by simp⟩
      · exact .inl (by simp [h])
    · simp only [modify, hk, if_false, List.mem_cons] at h
      rcases h with rfl | h
      · exact .inl (by simp)
      · rcases ih h with h | ⟨o, ho, he⟩
        · exact .inl (by simp [h])
        · exact .inr ⟨o, by simp [ho], he⟩

theorem mem_of_mem_erase {name : String} {entries : Entries} {e : Key × Item}
    (h : e ∈ erase name entries) : e ∈ entries := by
  induction entries with
  | nil => simp [erase] at h
  | cons first rest ih =>
    obtain ⟨key, old⟩ := first
    by_cases hk : key.name = name
    · simp only [erase, hk, if_true] at h
      exact List.mem_cons_of_mem _ h
    · simp only [erase, hk, if_false, List.mem_cons] at h ⊢
      exact h.imp_right ih

@[simp] theorem get?_insert_self {name : String} {item : Item} {entries : Entries} :
    get? name (insert name item entries) = some item := by
  induction entries with
  | nil => simp [insert, get?_cons]
  | cons e rest ih =>
    obtain ⟨key, old⟩ := e
    by_cases h : key.name = name
    · simp [insert, h, get?_cons]
    · simp [insert, h, get?_cons, ih]

theorem get?_insert_of_ne {name other : String} {item : Item} {entries : Entries}
    (h : other ≠ name) : get? other (insert name item entries) = get? other entries := by
  induction entries with
  | nil => simp [insert, get?_cons, Ne.symm h]
  | cons e rest ih =>
    obtain ⟨key, old⟩ := e
    by_cases hk : key.name = name
    · simp [insert, hk, get?_cons, Ne.symm h]
    · simp [insert, hk, get?_cons, ih]

theorem get?_erase_of_ne {name other : String} {entries : Entries} (h : other ≠ name) :
    get? other (erase name entries) = get? other entries := by
  induction entries with
  | nil => rfl
  | cons e rest ih =>
    obtain ⟨key, old⟩ := e
    by_cases hk : key.name = name
    · simp [erase, hk, get?_cons, Ne.symm h]
    · simp [erase, hk, get?_cons, ih]

/-- An erased name is gone, because no name stands in a table twice. -/
theorem get?_erase_self {name : String} {entries : Entries} (h : (names entries).Nodup) :
    get? name (erase name entries) = none := by
  induction entries with
  | nil => rfl
  | cons e rest ih =>
    obtain ⟨key, old⟩ := e
    simp only [names, List.map_cons, List.nodup_cons] at h
    by_cases hk : key.name = name
    · rw [← Option.not_isSome_iff_eq_none]
      simp only [erase, hk, if_true, get?_isSome_iff]
      exact hk ▸ h.1
    · simpa [erase, hk, get?_cons] using ih h.2

theorem get?_modify_self {name : String} {f : Item → Item} {entries : Entries} :
    get? name (modify name f entries) = (get? name entries).map f := by
  induction entries with
  | nil => rfl
  | cons e rest ih =>
    obtain ⟨key, old⟩ := e
    by_cases hk : key.name = name
    · simp [modify, hk, get?_cons]
    · simp [modify, hk, get?_cons, ih]

theorem get?_modify_of_ne {name other : String} {f : Item → Item} {entries : Entries}
    (h : other ≠ name) : get? other (modify name f entries) = get? other entries := by
  induction entries with
  | nil => rfl
  | cons e rest ih =>
    obtain ⟨key, old⟩ := e
    by_cases hk : key.name = name
    · simp [modify, hk, get?_cons, Ne.symm h]
    · simp [modify, hk, get?_cons, ih]

@[simp] theorem names_modify {name : String} {f : Item → Item} {entries : Entries} :
    names (modify name f entries) = names entries := by
  induction entries with
  | nil => rfl
  | cons e rest ih =>
    obtain ⟨key, old⟩ := e
    by_cases hk : key.name = name
    · simp [modify, hk, names]
    · simpa [modify, hk, names] using ih

/-- A new name goes to the end; the order of names is otherwise kept. -/
theorem names_insert {name : String} {item : Item} {entries : Entries} :
    names (insert name item entries) =
      if name ∈ names entries then names entries else names entries ++ [name] := by
  induction entries with
  | nil => simp [insert, names]
  | cons e rest ih =>
    obtain ⟨key, old⟩ := e
    by_cases hk : key.name = name
    · simp [insert, hk, names]
    · simp only [names] at ih
      simp only [names, insert, hk, if_false, List.map_cons, List.mem_cons, ih, Ne.symm hk, false_or]
      split <;> simp [*]

theorem names_erase {name : String} {entries : Entries} :
    names (erase name entries) = (names entries).erase name := by
  induction entries with
  | nil => rfl
  | cons e rest ih =>
    obtain ⟨key, old⟩ := e
    by_cases hk : key.name = name
    · simp [erase, hk, names]
    · have ih : (erase name rest).map (·.1.name) = _ := ih
      simp [erase, hk, names, ih]

/-- Only the item that stands under the name counts for a change. -/
theorem modify_congr {name : String} {entries : Entries} {f g : Item → Item}
    (h : ∀ item, get? name entries = some item → f item = g item) :
    modify name f entries = modify name g entries := by
  induction entries with
  | nil => rfl
  | cons e rest ih =>
    obtain ⟨key, item⟩ := e
    by_cases hk : key.name = name
    · simp [modify, hk, h item (by simp [get?_cons, hk])]
    · simp only [modify, hk, if_false]
      rw [ih fun i hi => h i (by simpa [get?_cons, hk] using hi)]

@[simp] theorem modify_id {name : String} {entries : Entries} : modify name id entries = entries := by
  induction entries with
  | nil => rfl
  | cons e rest ih =>
    obtain ⟨key, item⟩ := e
    by_cases hk : key.name = name <;> simp [modify, hk, ih]

theorem modify_modify {name : String} {f g : Item → Item} {entries : Entries} :
    modify name g (modify name f entries) = modify name (g ∘ f) entries := by
  induction entries with
  | nil => rfl
  | cons e rest ih =>
    obtain ⟨key, item⟩ := e
    by_cases hk : key.name = name <;> simp [modify, hk, ih]

/-- Under different names a change by name is a change of every entry of that name. -/
theorem modify_eq_map {name : String} {f : Item → Item} {entries : Entries}
    (hn : (names entries).Nodup) :
    modify name f entries =
      entries.map fun e => (e.1, if e.1.name = name then f e.2 else e.2) := by
  induction entries with
  | nil => rfl
  | cons e rest ih =>
    obtain ⟨key, item⟩ := e
    simp only [names, List.map_cons, List.nodup_cons, List.mem_map, not_exists, not_and] at hn
    by_cases hk : key.name = name
    · have hrest : rest.map (fun e => (e.1, if e.1.name = name then f e.2 else e.2)) = rest := by
        refine (List.map_congr_left fun e he => ?_).trans (List.map_id rest)
        rw [if_neg fun h => hn.1 e he (h.trans hk.symm)]
        rfl
      simp [modify, hk, hrest]
    · simp [modify, hk, ih hn.2]

end ManifestUpkeep.Toml.Entries
