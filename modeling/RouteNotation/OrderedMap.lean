/-!
Maps that keep their entries in the order in which the keys first came. A key stands once, which is
part of the type. Main statements: `keys_update` and `get?_update` say what writing does.
-/

namespace RouteNotation

structure OrderedMap (κ α : Type) where
  entries : List (κ × α)
  nodup : (entries.map Prod.fst).Nodup

namespace OrderedMap
variable {κ α β : Type}

@[ext] theorem ext {m n : OrderedMap κ α} (h : m.entries = n.entries) : m = n := by
  cases m; cases n; cases h; rfl

def empty : OrderedMap κ α := ⟨[], .nil⟩

def single (k : κ) (a : α) : OrderedMap κ α := ⟨[(k, a)], by simp⟩

instance : Inhabited (OrderedMap κ α) := ⟨empty⟩
instance : EmptyCollection (OrderedMap κ α) := ⟨empty⟩

instance [DecidableEq κ] [DecidableEq α] : DecidableEq (OrderedMap κ α) := fun m n =>
  if h : m.entries = n.entries then isTrue (ext h) else isFalse (h ∘ congrArg entries)

instance [Repr κ] [Repr α] : Repr (OrderedMap κ α) := ⟨fun m n => reprPrec m.entries n⟩

def keys (m : OrderedMap κ α) : List κ := m.entries.map Prod.fst
def size (m : OrderedMap κ α) : Nat := m.entries.length
def isEmpty (m : OrderedMap κ α) : Bool := m.entries.isEmpty

variable [DecidableEq κ]

/-- The first value under `k`. -/
def lookup (k : κ) : List (κ × α) → Option α
  | [] => none
  | (k', a) :: rest => if k' = k then some a else lookup k rest

def get? (m : OrderedMap κ α) (k : κ) : Option α := lookup k m.entries

def contains (m : OrderedMap κ α) (k : κ) : Bool := m.keys.contains k

/-- Writes `f` of the value under `k`; a new key goes to the end. -/
def updateEntries (k : κ) (f : Option α → α) : List (κ × α) → List (κ × α)
  | [] => [(k, f none)]
  | (k', a) :: rest =>
    if k' = k then (k', f (some a)) :: rest else (k', a) :: updateEntries k f rest

theorem map_fst_updateEntries (k : κ) (f : Option α → α) (es : List (κ × α)) :
    (updateEntries k f es).map Prod.fst =
      if k ∈ es.map Prod.fst then es.map Prod.fst else es.map Prod.fst ++ [k] := by
  induction es with
  | nil => rfl
  | cons e es ih =>
    obtain ⟨k', a⟩ := e
    by_cases h : k' = k
    · simp [updateEntries, h]
    · simp only [updateEntries, h, if_false, List.map_cons, ih, List.mem_cons, Ne.symm h, false_or]
      split <;> simp

/-- Writes `f` of the value under `k`, in its place or, for a new key, at the end. -/
def update (m : OrderedMap κ α) (k : κ) (f : Option α → α) : OrderedMap κ α where
  entries := updateEntries k f m.entries
  nodup := by
    rw [map_fst_updateEntries]
    split
    · exact m.nodup
    · rename_i h
      exact List.nodup_append.2 ⟨m.nodup, by simp, by
        intro a ha b hb; simp at hb; rintro rfl; exact h (hb ▸ ha)⟩

/-- Puts `a` under `k`, in place of what stood there. -/
def insert (m : OrderedMap κ α) (k : κ) (a : α) : OrderedMap κ α := m.update k fun _ => a

/-- Puts `a` at the end of the list under `k`. -/
def append (m : OrderedMap κ (List α)) (k : κ) (as : List α) : OrderedMap κ (List α) :=
  m.update k fun old => old.getD [] ++ as

/-- The entries whose key passes. -/
def filterKeys (m : OrderedMap κ α) (p : κ → Bool) : OrderedMap κ α where
  entries := m.entries.filter (p ·.1)
  nodup := m.nodup.sublist (List.filter_sublist.map _)

/-- Takes `k` out; what follows moves up. -/
def erase (m : OrderedMap κ α) (k : κ) : OrderedMap κ α := m.filterKeys (· ≠ k)

/-- Puts the entries of `n` in one after another. -/
def insertAll (m n : OrderedMap κ α) : OrderedMap κ α :=
  n.entries.foldl (fun m e => m.insert e.1 e.2) m

/-- Puts a value in if there is one. -/
def insertSome (m : OrderedMap κ α) (k : κ) (a : Option α) : OrderedMap κ α :=
  match a with
  | some a => m.insert k a
  | none => m

/-- Puts the entries in one after another: a repeated key keeps its first place and takes its last
value. -/
def ofList (es : List (κ × α)) : OrderedMap κ α := es.foldl (fun m e => m.insert e.1 e.2) empty

theorem keys_update (m : OrderedMap κ α) (k : κ) (f : Option α → α) :
    (m.update k f).keys = if k ∈ m.keys then m.keys else m.keys ++ [k] :=
  map_fst_updateEntries k f m.entries

theorem lookup_updateEntries (k j : κ) (f : Option α → α) (es : List (κ × α)) :
    lookup j (updateEntries k f es) = if j = k then some (f (lookup k es)) else lookup j es := by
  induction es with
  | nil =>
    by_cases h : k = j
    · simp [updateEntries, lookup, h]
    · simp [updateEntries, lookup, h, Ne.symm h]
  | cons e es ih =>
    obtain ⟨k', a⟩ := e
    by_cases h : k' = k
    · subst h
      by_cases hj : k' = j
      · subst hj; simp [updateEntries, lookup]
      · simp [updateEntries, lookup, hj, Ne.symm hj]
    · by_cases hj : k' = j
      · subst hj; simp [updateEntries, lookup, h]
      · simp [updateEntries, lookup, h, hj, ih]

theorem get?_update (m : OrderedMap κ α) (k j : κ) (f : Option α → α) :
    (m.update k f).get? j = if j = k then some (f (m.get? k)) else m.get? j :=
  lookup_updateEntries k j f m.entries

/-- A new key goes to the end. -/
theorem entries_insert_of_not_mem {m : OrderedMap κ α} {k : κ} (h : k ∉ m.keys) (a : α) :
    (m.insert k a).entries = m.entries ++ [(k, a)] := by
  obtain ⟨es, nodup⟩ := m
  simp only [keys, insert, update] at h ⊢
  clear nodup
  induction es with
  | nil => rfl
  | cons e es ih =>
    simp only [List.map_cons, List.mem_cons, not_or] at h
    simp [updateEntries, Ne.symm h.1, ih h.2]

end OrderedMap

/-- Attributes by name, in order. -/
abbrev Attributes := OrderedMap String String

end RouteNotation
