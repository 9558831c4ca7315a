import RouteNotation.OrderedMap

/-!
What is in a map after several writes. Under keys that are new, writing appends.
-/

namespace RouteNotation.OrderedMap
variable {κ α σ : Type}

theorem mem_keys_single {k j : κ} {a : α} : j ∈ (single k a).keys ↔ j = k := List.mem_singleton

theorem not_mem_keys_empty {j : κ} : j ∉ (empty : OrderedMap κ α).keys := List.not_mem_nil

variable [DecidableEq κ]

theorem mem_keys_insert {m : OrderedMap κ α} {k j : κ} {a : α} :
    j ∈ (m.insert k a).keys ↔ j ∈ m.keys ∨ j = k := by
  rw [insert, keys_update]
  split
  · constructor
    · exact .inl
    · rintro (h | rfl) <;> assumption
  · simp

theorem mem_keys_insertSome {m : OrderedMap κ α} {k j : κ} {a : Option α} :
    j ∈ (m.insertSome k a).keys ↔ j ∈ m.keys ∨ (a.isSome ∧ j = k) := by
  cases a with
  | none => simp [insertSome]
  | some a => simp [insertSome, mem_keys_insert]

theorem mem_keys_insertEach {m : OrderedMap κ α} {es : List (κ × α)} {j : κ} :
    j ∈ (es.foldl (fun m e => m.insert e.1 e.2) m).keys ↔ j ∈ m.keys ∨ j ∈ es.map Prod.fst := by
  induction es generalizing m with
  | nil => simp
  | cons e es ih =>
    rw [List.foldl_cons, ih, mem_keys_insert, List.map_cons, List.mem_cons, or_assoc]

theorem mem_keys_insertAll {m n : OrderedMap κ α} {j : κ} :
    j ∈ (m.insertAll n).keys ↔ j ∈ m.keys ∨ j ∈ n.keys :=
  mem_keys_insertEach

theorem mem_entries_update {m : OrderedMap κ α} {k : κ} {f : Option α → α} {e : κ × α}
    (h : e ∈ (m.update k f).entries) :
    e ∈ m.entries ∨ ∃ old, e = (k, f old) ∧ ∀ a ∈ old, (k, a) ∈ m.entries := by
  obtain ⟨es, nodup⟩ := m
  simp only [update] at h ⊢
  clear nodup
  induction es with
  | nil =>
    exact .inr ⟨none, List.mem_singleton.1 h, fun _ there => absurd there (Option.not_mem_none _)⟩
  | cons d es ih =>
    obtain ⟨j, a⟩ := d
    rw [updateEntries] at h
    split at h
    · rename_i same
      subst same
      rcases List.mem_cons.1 h with rfl | h
      · exact .inr ⟨some a, rfl, fun b hb => by cases hb; exact List.mem_cons_self⟩
      · exact .inl (List.mem_cons_of_mem _ h)
    · rcases List.mem_cons.1 h with rfl | h
      · exact .inl List.mem_cons_self
      · rcases ih h with h | ⟨old, rfl, before⟩
        · exact .inl (List.mem_cons_of_mem _ h)
        · exact .inr ⟨old, rfl, fun b hb => List.mem_cons_of_mem _ (before b hb)⟩

theorem mem_entries_insert {m : OrderedMap κ α} {k : κ} {a : α} {e : κ × α}
    (h : e ∈ (m.insert k a).entries) : e ∈ m.entries ∨ e = (k, a) := by
  rcases mem_entries_update h with h | ⟨_, rfl, _⟩
  · exact .inl h
  · exact .inr rfl

theorem get?_eq_none {m : OrderedMap κ α} {k : κ} (h : k ∉ m.keys) : m.get? k = none := by
  obtain ⟨es, nodup⟩ := m
  simp only [keys, get?] at h ⊢
  clear nodup
  induction es with
  | nil => rfl
  | cons e es ih =>
    simp only [List.map_cons, List.mem_cons, not_or] at h
    rw [lookup, if_neg (Ne.symm h.1), ih h.2]

theorem get?_insert (m : OrderedMap κ α) (k j : κ) (a : α) :
    (m.insert k a).get? j = if j = k then some a else m.get? j :=
  get?_update m k j _

theorem get?_insertSome (m : OrderedMap κ α) (k j : κ) (a : Option α) :
    (m.insertSome k a).get? j = if j = k then a.or (m.get? j) else m.get? j := by
  cases a with
  | none => simp [insertSome]
  | some a => simp [insertSome, insert, get?_update]

theorem get?_insertAll {m n : OrderedMap κ α} {k : κ} (h : k ∉ n.keys) :
    (m.insertAll n).get? k = m.get? k := by
  obtain ⟨es, nodup⟩ := n
  simp only [keys, insertAll] at h ⊢
  clear nodup
  induction es generalizing m with
  | nil => rfl
  | cons e es ih =>
    simp only [List.map_cons, List.mem_cons, not_or] at h
    rw [List.foldl_cons, ih h.2, insert, get?_update, if_neg h.1]

theorem get?_isSome {m : OrderedMap κ α} {k : κ} (h : k ∈ m.keys) : (m.get? k).isSome := by
  obtain ⟨es, nodup⟩ := m
  simp only [keys, get?] at h ⊢
  clear nodup
  induction es with
  | nil => cases h
  | cons e es ih =>
    rw [lookup]
    split
    · rfl
    · rename_i other
      rcases List.mem_cons.1 h with same | h
      · exact absurd same.symm other
      · exact ih h

theorem get?_of_mem {m : OrderedMap κ α} {e : κ × α} (h : e ∈ m.entries) :
    m.get? e.1 = some e.2 := by
  obtain ⟨es, nodup⟩ := m
  simp only [get?] at h ⊢
  induction es with
  | nil => cases h
  | cons d es ih =>
    simp only [List.map_cons, List.nodup_cons] at nodup
    rw [lookup]
    rcases List.mem_cons.1 h with rfl | later
    · rw [if_pos rfl]
    · rw [if_neg fun same => nodup.1 (List.mem_map.2 ⟨e, later, same.symm⟩), ih nodup.2 later]

theorem mem_entries_of_get? {m : OrderedMap κ α} {k : κ} {a : α} (h : m.get? k = some a) :
    (k, a) ∈ m.entries := by
  obtain ⟨es, nodup⟩ := m
  simp only [get?] at h ⊢
  clear nodup
  induction es with
  | nil => cases h
  | cons e es ih =>
    rw [lookup] at h
    split at h
    · rename_i same
      cases Option.some.inj h
      exact same ▸ List.mem_cons_self
    · exact List.mem_cons_of_mem _ (ih h)

/-- A map is its keys with what stands under them. -/
theorem entries_eq_map_keys (m : OrderedMap κ α) (a : α) :
    m.entries = m.keys.map fun k => (k, (m.get? k).getD a) := by
  have each : ∀ e ∈ m.entries, ((fun k => (k, (m.get? k).getD a)) ∘ Prod.fst) e = id e := by
    intro e he
    simp [get?_of_mem he]
  rw [keys, List.map_map, List.map_congr_left each, List.map_id]

theorem entries_insertSome {m : OrderedMap κ α} {k : κ} (h : k ∉ m.keys) (a : Option α) :
    (m.insertSome k a).entries = m.entries ++ a.toList.map fun a => (k, a) := by
  cases a with
  | none => simp [insertSome]
  | some a => simp [insertSome, entries_insert_of_not_mem h]

theorem entries_insertEach {m : OrderedMap κ α} {es : List (κ × α)}
    (nodup : (es.map Prod.fst).Nodup) (new : ∀ e ∈ es, e.1 ∉ m.keys) :
    (es.foldl (fun m e => m.insert e.1 e.2) m).entries = m.entries ++ es := by
  induction es generalizing m with
  | nil => simp
  | cons e es ih =>
    simp only [List.mem_cons, forall_eq_or_imp] at new
    simp only [List.map_cons, List.nodup_cons] at nodup
    have later : ∀ f ∈ es, f.1 ∉ (m.insert e.1 e.2).keys := by
      intro f hf
      rw [mem_keys_insert, not_or]
      exact ⟨new.2 f hf, fun same => nodup.1 (same ▸ List.mem_map_of_mem hf)⟩
    rw [List.foldl_cons, ih nodup.2 later, entries_insert_of_not_mem new.1]
    simp

theorem entries_insertAll {m n : OrderedMap κ α} (new : ∀ k ∈ n.keys, k ∉ m.keys) :
    (m.insertAll n).entries = m.entries ++ n.entries :=
  entries_insertEach n.nodup fun e he => new e.1 (List.mem_map_of_mem he)

section TwoKeys
variable {m : OrderedMap κ α} {k l j : κ} {a b : Option α}

/-- Two keys that may be missing, and then those of a map. -/
theorem mem_keys_insertTwo
    (h : j ∈ (((empty.insertSome k a).insertSome l b).insertAll m).keys) :
    j = k ∨ j = l ∨ j ∈ m.keys := by
  simp only [mem_keys_insertAll, mem_keys_insertSome] at h
  rcases h with ((h | ⟨_, rfl⟩) | ⟨_, rfl⟩) | h
  · exact absurd h not_mem_keys_empty
  · exact .inl rfl
  · exact .inr (.inl rfl)
  · exact .inr (.inr h)

theorem entries_insertTwo (different : l ≠ k) (hk : k ∉ m.keys) (hl : l ∉ m.keys) :
    (((empty.insertSome k a).insertSome l b).insertAll m).entries =
      a.toList.map (fun a => (k, a)) ++ (b.toList.map (fun b => (l, b)) ++ m.entries) := by
  have second : l ∉ ((empty : OrderedMap κ α).insertSome k a).keys := by
    simp [mem_keys_insertSome, not_mem_keys_empty, different]
  have others : ∀ j ∈ m.keys, j ∉ ((empty.insertSome k a).insertSome l b).keys := by
    intro j hj known
    simp only [mem_keys_insertSome] at known
    rcases known with (known | ⟨_, rfl⟩) | ⟨_, rfl⟩
    · exact not_mem_keys_empty known
    · exact hk hj
    · exact hl hj
  rw [entries_insertAll others, entries_insertSome second, entries_insertSome not_mem_keys_empty]
  simp [empty]

end TwoKeys

/-- Entries put one after another into nothing give the map they come from. -/
theorem insertAll_empty (m : OrderedMap κ α) : (empty : OrderedMap κ α).insertAll m = m := by
  apply ext
  rw [entries_insertAll fun k _ => List.not_mem_nil]
  rfl

theorem ofList_entries (m : OrderedMap κ α) : ofList m.entries = m := insertAll_empty m

/-- Reading entries that all go to one map of a state. -/
theorem foldl_put (put : OrderedMap κ α → σ) {add : σ → κ × α → σ} {es : List (κ × α)}
    {m : OrderedMap κ α} (h : ∀ m, ∀ e ∈ es, add (put m) e = put (m.insert e.1 e.2)) :
    es.foldl add (put m) = put (es.foldl (fun m e => m.insert e.1 e.2) m) := by
  induction es generalizing m with
  | nil => rfl
  | cons e es ih =>
    rw [List.foldl_cons, List.foldl_cons, h m e List.mem_cons_self,
      ih fun m f hf => h m f (List.mem_cons_of_mem e hf)]

theorem foldl_put_entries (put : OrderedMap κ α → σ) {add : σ → κ × α → σ} {own : OrderedMap κ α}
    (h : ∀ m, ∀ e ∈ own.entries, add (put m) e = put (m.insert e.1 e.2)) :
    own.entries.foldl add (put .empty) = put own :=
  (foldl_put put h).trans (congrArg put (insertAll_empty own))

/-- Reading entries of which those under one key set a field. -/
theorem foldl_field {β : Type} (field : σ → Option β) (key : κ) {add : σ → κ × β → σ}
    (sets : ∀ s a, field (add s (key, a)) = some a)
    (keeps : ∀ s e, e.1 ≠ key → field (add s e) = field s) (m : OrderedMap κ β) (s : σ) :
    field (m.entries.foldl add s) = (m.get? key).or (field s) := by
  obtain ⟨es, nodup⟩ := m
  simp only [get?]
  induction es generalizing s with
  | nil => rfl
  | cons e es ih =>
    obtain ⟨k, a⟩ := e
    simp only [List.map_cons, List.nodup_cons] at nodup
    rw [List.foldl_cons, ih _ nodup.2, lookup]
    split
    · rename_i same
      subst same
      have none : lookup k es = none := get?_eq_none (m := ⟨es, nodup.2⟩) nodup.1
      rw [none, sets]
      rfl
    · rename_i other
      rw [keeps s (k, a) other]

/-- Of two values under one key the later stays. -/
theorem get?_insertAll_or (m n : OrderedMap κ α) (k : κ) :
    (m.insertAll n).get? k = (n.get? k).or (m.get? k) := by
  apply foldl_field (fun m : OrderedMap κ α => m.get? k) k
  · intro m a
    exact (get?_insert m k k a).trans (if_pos rfl)
  · intro m e other
    exact (get?_insert m e.1 k e.2).trans (if_neg (Ne.symm other))

section Lists
variable {m : OrderedMap κ (List α)} {k : κ}

theorem updateEntries_comp {f g : Option α → α} {es : List (κ × α)} :
    updateEntries k g (updateEntries k f es) = updateEntries k (fun a => g (some (f a))) es := by
  induction es with
  | nil => simp [updateEntries]
  | cons e es ih =>
    obtain ⟨j, a⟩ := e
    by_cases h : j = k
    · simp [updateEntries, h]
    · simp [updateEntries, h, ih]

theorem append_append (as bs : List α) : (m.append k as).append k bs = m.append k (as ++ bs) := by
  apply ext
  simp only [append, update, updateEntries_comp, Option.getD_some, List.append_assoc]

theorem foldl_append_one (as bs : List α) :
    bs.foldl (fun m b => m.append k [b]) (m.append k as) = m.append k (as ++ bs) := by
  induction bs generalizing as with
  | nil => simp
  | cons b bs ih => rw [List.foldl_cons, append_append, ih]; simp

theorem entries_append_of_not_mem (h : k ∉ m.keys) (as : List α) :
    (m.append k as).entries = m.entries ++ [(k, as)] := by
  obtain ⟨es, nodup⟩ := m
  simp only [keys, append, update] at h ⊢
  clear nodup
  induction es with
  | nil => simp [updateEntries]
  | cons e es ih =>
    simp only [List.map_cons, List.mem_cons, not_or] at h
    simp [updateEntries, Ne.symm h.1, ih h.2]

theorem mem_keys_append {j : κ} {as : List α} :
    j ∈ (m.append k as).keys ↔ j ∈ m.keys ∨ j = k := by
  rw [append, keys_update]
  split
  · constructor
    · exact .inl
    · rintro (h | rfl) <;> assumption
  · simp

theorem mem_of_mem_append {as : List α} {list : κ × List α} {a : α}
    (h : list ∈ (m.append k as).entries) (ha : a ∈ list.2) :
    (∃ l ∈ m.entries, a ∈ l.2) ∨ a ∈ as := by
  rcases mem_entries_update h with h | ⟨old, rfl, before⟩
  · exact .inl ⟨list, h, ha⟩
  · rcases List.mem_append.1 ha with ha | ha
    · cases old with
      | none => cases ha
      | some bs => exact .inl ⟨(k, bs), before bs rfl, ha⟩
    · exact .inr ha

/-- Every value with the key of its list, in order. -/
def flatten (m : OrderedMap κ (List α)) : List (κ × α) :=
  m.entries.flatMap fun list => list.2.map fun a => (list.1, a)

theorem entries_appendEach {es : List (κ × List α)} (nodup : (es.map Prod.fst).Nodup)
    (new : ∀ e ∈ es, e.1 ∉ m.keys) (nonempty : ∀ e ∈ es, e.2 ≠ []) :
    ((es.flatMap fun list => list.2.map fun a => (list.1, a)).foldl
      (fun m e => m.append e.1 [e.2]) m).entries = m.entries ++ es := by
  induction es generalizing m with
  | nil => simp
  | cons e es ih =>
    obtain ⟨k, as⟩ := e
    simp only [List.mem_cons, forall_eq_or_imp] at new nonempty
    simp only [List.map_cons, List.nodup_cons] at nodup
    have later : ∀ f ∈ es, f.1 ∉ (m.append k as).keys := by
      intro f hf
      rw [mem_keys_append, not_or]
      exact ⟨new.2 f hf, fun same => nodup.1 (same ▸ List.mem_map_of_mem hf)⟩
    have here : (as.map fun a => (k, a)).foldl (fun m e => m.append e.1 [e.2]) m =
        m.append k as := by
      cases as with
      | nil => exact absurd rfl nonempty.1
      | cons a as => rw [List.map_cons, List.foldl_cons, List.foldl_map, foldl_append_one]; rfl
    rw [List.flatMap_cons, List.foldl_append, here, ih nodup.2 later nonempty.2,
      entries_append_of_not_mem new.1]
    simp

/-- Lists appended under keys of their own. -/
theorem foldl_append_entries (m : OrderedMap κ (List α)) :
    m.entries.foldl (fun n e => n.append e.1 e.2) .empty = m := by
  have each : ∀ (es : List (κ × List α)) (n : OrderedMap κ (List α)), (es.map Prod.fst).Nodup →
      (∀ e ∈ es, e.1 ∉ n.keys) →
        (es.foldl (fun n e => n.append e.1 e.2) n).entries = n.entries ++ es := by
    intro es
    induction es with
    | nil => simp
    | cons e es ih =>
      intro n nodup new
      rw [List.map_cons, List.nodup_cons] at nodup
      rw [List.forall_mem_cons] at new
      have later : ∀ f ∈ es, f.1 ∉ (n.append e.1 e.2).keys := by
        intro f hf
        rw [mem_keys_append, not_or]
        exact ⟨new.2 f hf, fun same => nodup.1 (same ▸ List.mem_map_of_mem hf)⟩
      rw [List.foldl_cons, ih _ nodup.2 later, entries_append_of_not_mem new.1]
      simp
  apply ext
  rw [each m.entries .empty m.nodup fun _ _ => List.not_mem_nil]
  rfl

/-- Lists that are not empty are put together again from their values. -/
theorem foldl_append_flatten {m : OrderedMap κ (List α)} (h : ∀ e ∈ m.entries, e.2 ≠ []) :
    m.flatten.foldl (fun n e => n.append e.1 [e.2]) .empty = m := by
  apply ext
  rw [flatten, entries_appendEach m.nodup (fun _ _ => List.not_mem_nil) h]
  rfl

end Lists
end RouteNotation.OrderedMap
