import RouteNotation.Proofs.OrderedMap
import RouteNotation.Route.Uri

/-!
A URI that is taken apart is put together again as it was, character by character.
-/

namespace RouteNotation

namespace Text

theorem pieceChars_ne_nil (c : Char) (cs : List Char) : pieceChars c cs ≠ [] := by
  cases cs with
  | nil => nofun
  | cons d rest =>
    rw [pieceChars]
    split
    · nofun
    · split <;> nofun

/-- The pieces with the separator between them are the text. -/
theorem eq_of_pieceChars {c : Char} {cs piece : List Char} {pieces : List (List Char)}
    (h : pieceChars c cs = piece :: pieces) : cs = piece ++ pieces.flatMap (c :: ·) := by
  induction cs generalizing piece pieces with
  | nil =>
    cases h
    rfl
  | cons d rest ih =>
    rw [pieceChars] at h
    cases hr : pieceChars c rest with
    | nil => exact absurd hr (pieceChars_ne_nil c rest)
    | cons first others =>
      have whole := ih hr
      rw [hr] at h
      split at h
      · rename_i same
        cases h
        simp [same, whole]
      · cases h
        simp [whole]

theorem eq_of_pieces {c : Char} {s piece : String} {rest : List String}
    (h : pieces c s = piece :: rest) :
    s.toList = piece.toList ++ rest.flatMap fun p => c :: p.toList := by
  obtain ⟨first, others, hp, rfl, rfl⟩ := List.map_eq_cons_iff.1 h
  rw [eq_of_pieceChars hp, String.toList_ofList, List.flatMap_map]
  simp only [String.toList_ofList]

theorem eq_of_cut? {c : Char} {s before after : String} (h : cut? c s = some (before, after)) :
    s.toList = before.toList ++ c :: after.toList ∧ c ∉ before.toList := by
  obtain ⟨⟨first, last⟩, hp, heq⟩ := Option.map_eq_some_iff.1 h
  cases heq
  simpa using eq_of_cutChars hp

theorem cutChars_eq_none {c : Char} {cs : List Char} (h : c ∉ cs) : cutChars c cs = none := by
  induction cs with
  | nil => rfl
  | cons d rest ih =>
    simp only [List.mem_cons, not_or] at h
    rw [cutChars, if_neg (Ne.symm h.1), ih h.2]
    rfl

theorem cut?_eq_none {c : Char} {s : String} (h : c ∉ s.toList) : cut? c s = none := by
  rw [cut?, cutChars_eq_none h]
  rfl

theorem contains_eq_false {c : Char} {s : String} (h : c ∉ s.toList) : contains c s = false := by
  simpa [contains] using h

theorem contains_of_mem {c : Char} {s : String} (h : c ∈ s.toList) : contains c s = true := by
  simpa [contains] using h

end Text

namespace Uri

open Text OrderedMap

/-- A parameter as it stands in a query. -/
def pairChars (p : String × String) : List Char := p.1.toList ++ '=' :: p.2.toList

/-- A scheme holds neither of the separators. -/
theorem not_mem_of_isScheme {scheme : String} (h : isScheme scheme = true) :
    ':' ∉ scheme.toList ∧ '?' ∉ scheme.toList := by
  have all : ∀ c ∈ scheme.toList, isSchemeChar c = true := by
    unfold isScheme at h
    split at h
    · cases h
    · rename_i c rest hs
      rw [Bool.and_eq_true, List.all_eq_true] at h
      rw [hs]
      apply List.forall_mem_cons.2 ⟨_, h.2⟩
      have letter : c.isAlpha = true := h.1
      simp [isSchemeChar, Char.isAlphanum, letter]
  constructor
  · intro hc
    exact absurd (all _ hc) (by decide)
  · intro hc
    exact absurd (all _ hc) (by decide)

/-- What a query adds are new parameters, in the order of its pieces. -/
theorem entries_addParameters? {start parameters : Attributes} {pieces : List String}
    (h : addParameters? start pieces = some parameters) :
    ∃ added, parameters.entries = start.entries ++ added ∧
      pieces.map String.toList = added.map pairChars := by
  induction pieces generalizing start with
  | nil =>
    cases Option.some.inj h
    exact ⟨[], (List.append_nil _).symm, rfl⟩
  | cons piece pieces ih =>
    rw [addParameters?] at h
    split at h
    · contradiction
    · rename_i key value cut
      split at h
      · contradiction
      · rename_i new
        have fresh : key ∉ start.keys := by
          simp only [Bool.or_eq_true, not_or, Bool.not_eq_true] at new
          simpa [OrderedMap.contains] using new.2
        obtain ⟨added, entries, texts⟩ := ih h
        refine ⟨(key, value) :: added, ?_, ?_⟩
        · rw [entries, entries_insert_of_not_mem fresh, List.append_assoc]
          rfl
        · rw [List.map_cons, List.map_cons, texts, (eq_of_cut? cut).1]
          rfl

theorem toList_addParameter (uri : String) (p : String × String) :
    (addParameter uri p).toList =
      uri.toList ++ (if contains '?' uri then '&' else '?') :: pairChars p := by
  unfold addParameter pairChars
  split <;> simp [toString]

/-- Behind the first parameter of a query stand the others, each with its mark. -/
theorem toList_foldl_addParameter {uri : String} (query : '?' ∈ uri.toList)
    (ps : List (String × String)) :
    (ps.foldl addParameter uri).toList = uri.toList ++ ps.flatMap fun p => '&' :: pairChars p := by
  induction ps generalizing uri with
  | nil => simp
  | cons p ps ih =>
    have more := toList_addParameter uri p
    rw [if_pos (contains_of_mem query)] at more
    rw [List.foldl_cons, ih (by simp [more, query]), more]
    simp

theorem toList_addPrimary {uri : String} (noQuery : '?' ∉ uri.toList) (primary : String) :
    (addPrimary uri primary).toList = uri.toList ++ ':' :: primary.toList := by
  simp [addPrimary, cut?_eq_none noQuery, toString]

/-- The primary segment moves into a bare scheme, from any place among the parameters. -/
theorem takePrimary_of_entries {uri scheme primary : String} {parameters : Attributes}
    {before after : List (String × String)} (bare : ':' ∉ uri.toList)
    (named : ((cut? '?' uri).map Prod.fst).getD uri = scheme)
    (entries : parameters.entries = before ++ (primaryKey scheme, primary) :: after) :
    (takePrimary uri parameters).1 = addPrimary uri primary ∧
      (takePrimary uri parameters).2.entries = before ++ after := by
  have there : (primaryKey scheme, primary) ∈ parameters.entries := by simp [entries]
  have known : primaryKeyIn? scheme parameters = some (primaryKey scheme) := by
    have contained : parameters.contains (primaryKey scheme) := by
      simp [OrderedMap.contains, OrderedMap.keys, entries]
    rw [primaryKeyIn?, List.find?_cons_of_pos contained]
  have value : parameters.get? (primaryKey scheme) = some primary := get?_of_mem there
  have others : ∀ p ∈ before ++ after, p.1 ≠ primaryKey scheme := by
    have nodup := parameters.nodup
    rw [entries, List.map_append, List.map_cons, List.perm_middle.nodup_iff, List.nodup_cons,
      ← List.map_append] at nodup
    intro p hp same
    exact nodup.1 (List.mem_map.2 ⟨p, hp, same⟩)
  have left : (parameters.erase (primaryKey scheme)).entries = before ++ after := by
    rw [List.forall_mem_append] at others
    change parameters.entries.filter _ = before ++ after
    rw [entries, List.filter_append, List.filter_cons_of_neg (by simp),
      List.filter_eq_self.2 fun p hp => by simpa using others.1 p hp,
      List.filter_eq_self.2 fun p hp => by simpa using others.2 p hp]
  simp only [takePrimary, contains_eq_false bare, Bool.false_eq_true, if_false]
  cases cut : cut? '?' uri with
  | none =>
    rw [cut] at named
    obtain rfl : uri = scheme := named
    simp only [known, value, Option.getD_some, left, and_self]
  | some parts =>
    rw [cut] at named
    obtain ⟨name, query⟩ := parts
    obtain rfl : name = scheme := named
    simp only [known, value, Option.getD_some, left, and_self]

theorem parts_of_unpack? {uri scheme : String} {parameters : Attributes}
    (h : unpack? uri = some (scheme, parameters)) :
    ∃ base query primary, cut? '?' uri = some (base, query) ∧
      cut? ':' base = some (scheme, primary) ∧ isScheme scheme = true ∧
      addParameters? (.insert .empty (primaryKey scheme) primary) (pieces '&' query) =
        some parameters := by
  simp only [unpack?, Option.bind_eq_bind, Option.bind_eq_some_iff] at h
  obtain ⟨⟨base, query⟩, cutQuery, ⟨name, primary⟩, cutScheme, h⟩ := h
  split at h
  · contradiction
  · rename_i checked
    obtain ⟨found, ready, same⟩ := Option.bind_eq_some_iff.1 h
    cases Option.some.inj same
    have named : isScheme name = true := by
      cases valid : isScheme name with
      | true => rfl
      | false => simp [valid] at checked
    exact ⟨base, query, primary, cutQuery, cutScheme, named, ready⟩

/-- Whatever is taken apart is put together again. -/
theorem pack_of_unpack? {uri scheme : String} {parameters : Attributes}
    (h : unpack? uri = some (scheme, parameters)) : pack scheme parameters = uri := by
  obtain ⟨base, query, primary, cutQuery, cutScheme, named, ready⟩ := parts_of_unpack? h
  obtain ⟨bare, noQuery⟩ := not_mem_of_isScheme named
  obtain ⟨whole, noMark⟩ := eq_of_cut? cutQuery
  obtain ⟨added, entries, texts⟩ := entries_addParameters? ready
  rw [entries_insert_of_not_mem not_mem_keys_empty] at entries
  have alone : ((cut? '?' scheme).map Prod.fst).getD scheme = scheme := by
    rw [cut?_eq_none noQuery]
    rfl
  have front : parameters.entries = [] ++ (primaryKey scheme, primary) :: added := entries
  obtain ⟨packed, left⟩ := takePrimary_of_entries bare alone front
  have start : (addPrimary scheme primary).toList = base.toList := by
    rw [toList_addPrimary noQuery, (eq_of_cut? cutScheme).1]
  -- The first parameter is put behind a question mark and the others behind ampersands.
  cases hp : pieces '&' query with
  | nil => simp [pieces, pieceChars_ne_nil] at hp
  | cons piece rest =>
    rw [hp, List.map_cons] at texts
    obtain ⟨first, others, rfl, firstText, otherTexts⟩ := List.map_eq_cons_iff.1 texts.symm
    have one := toList_addParameter (addPrimary scheme primary) first
    rw [contains_eq_false (start.symm ▸ noMark), start] at one
    have rejoined : query.toList =
        pairChars first ++ (others.map pairChars).flatMap ('&' :: ·) := by
      rw [eq_of_pieces hp, firstText, otherTexts, List.flatMap_map]
    have joined : pack scheme parameters =
        (first :: others).foldl addParameter (addPrimary scheme primary) := by
      change (takePrimary scheme parameters).2.entries.foldl addParameter
        (takePrimary scheme parameters).1 = _
      rw [packed, left]
      rfl
    apply String.toList_inj.1
    rw [joined, List.foldl_cons, toList_foldl_addParameter (by simp [one]), one, whole, rejoined,
      List.flatMap_map]
    simp

end Uri
end RouteNotation
