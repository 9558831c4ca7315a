import RouteNotation.Proofs.Route.Uri

/-!
What joining a bare scheme with its parameters gives. The primary segment goes behind the scheme, from
any place among the parameters, and the others follow as a query in their order. Main statements:
`unpack?_pack_bareScheme`, such a URI is taken apart again, and `pack_bareScheme_query_iff`, when the
scheme has a query before.
-/

namespace RouteNotation

namespace Text

theorem pieceChars_eq_splitOn (c : Char) (cs : List Char) : pieceChars c cs = cs.splitOn c := by
  induction cs with
  | nil => rw [List.splitOn_nil, pieceChars]
  | cons d rest ih =>
    rw [pieceChars, List.splitOn_cons_eq_if_modifyHead, ← ih]
    by_cases same : d = c
    · simp [same]
    · simp only [same, if_false, beq_iff_eq]
      cases pieces : pieceChars c rest with
      | nil => exact absurd pieces (pieceChars_ne_nil c rest)
      | cons piece others => rfl

theorem pieces_intercalate {c : Char} {ts : List String} (free : ∀ t ∈ ts, c ∉ t.toList)
    (some : ts ≠ []) : pieces c ((String.singleton c).intercalate ts) = ts := by
  have apart : ∀ cs ∈ ts.map String.toList, c ∉ cs := List.forall_mem_map.2 free
  have split := List.splitOn_intercalate c apart (by simpa using some)
  rw [pieces, String.toList_intercalate, String.toList_singleton, pieceChars_eq_splitOn, split,
    List.map_map]
  exact List.map_id'' (fun _ => String.ofList_toList) ts

theorem cut?_of_eq {c : Char} {s before after : String}
    (whole : s.toList = before.toList ++ c :: after.toList) (free : c ∉ before.toList) :
    cut? c s = some (before, after) := by
  rw [cut?, whole, cutChars_append free]
  simp

end Text

namespace Uri

open Text OrderedMap

def pairText (p : String × String) : String := s!"{p.1}={p.2}"

/-- The parameters of a query, with an ampersand between them. -/
def queryText (ps : List (String × String)) : String := "&".intercalate (ps.map pairText)

/-- Further parameters of a query, with an ampersand before each. -/
def furtherText (ps : List (String × String)) : String :=
  String.join (ps.map fun p => "&" ++ pairText p)

@[simp] theorem toList_pairText (p : String × String) : (pairText p).toList = pairChars p := by
  simp [pairText, pairChars, toString]

theorem toList_furtherText (ps : List (String × String)) :
    (furtherText ps).toList = ps.flatMap fun p => '&' :: pairChars p := by
  rw [furtherText, String.toList_join, List.flatMap_map]
  simp

theorem toList_queryText (p : String × String) (ps : List (String × String)) :
    (queryText (p :: ps)).toList = pairChars p ++ ps.flatMap fun p => '&' :: pairChars p := by
  induction ps generalizing p with
  | nil => simp [queryText]
  | cons q ps ih =>
    have rest := ih q
    unfold queryText at rest ⊢
    rw [List.map_cons, List.map_cons, String.intercalate_cons_cons, ← List.map_cons,
      String.toList_append, rest]
    simp

/-- Parameters behind a URI that has a query. -/
theorem foldl_addParameter_further {uri : String} (query : '?' ∈ uri.toList)
    (ps : List (String × String)) : ps.foldl addParameter uri = uri ++ furtherText ps := by
  apply String.toList_inj.1
  rw [toList_foldl_addParameter query, String.toList_append, toList_furtherText]

/-- Parameters behind a URI that has no query, of which there is one at least. -/
theorem foldl_addParameter_query {uri : String} (noQuery : '?' ∉ uri.toList)
    {ps : List (String × String)} (some : ps ≠ []) :
    ps.foldl addParameter uri = s!"{uri}?{queryText ps}" := by
  obtain ⟨p, ps, rfl⟩ := List.exists_cons_of_ne_nil some
  have first := toList_addParameter uri p
  rw [contains_eq_false noQuery] at first
  apply String.toList_inj.1
  rw [List.foldl_cons, toList_foldl_addParameter (by simp [first]), first]
  simp [toString, toList_queryText]

/-- Parameters whose texts can be cut are all put in, behind those that are there. -/
theorem addParameters?_pairTexts {start : Attributes} {ps : List (String × String)}
    (named : ∀ p ∈ ps, p.1 ≠ "" ∧ '=' ∉ p.1.toList)
    (nodup : ((start.entries ++ ps).map Prod.fst).Nodup) :
    ∃ parameters, addParameters? start (ps.map pairText) = some parameters ∧
      parameters.entries = start.entries ++ ps := by
  induction ps generalizing start with
  | nil => exact ⟨start, rfl, (List.append_nil _).symm⟩
  | cons p ps ih =>
    obtain ⟨⟨nonempty, noSign⟩, others⟩ := List.forall_mem_cons.1 named
    have cut : cut? '=' (pairText p) = some p := cut?_of_eq (toList_pairText p) noSign
    have fresh : p.1 ∉ start.keys := by
      rw [List.map_append, List.nodup_append] at nodup
      intro there
      exact nodup.2.2 _ there _ List.mem_cons_self rfl
    have entries : (start.insert p.1 p.2).entries = start.entries ++ [p] :=
      entries_insert_of_not_mem fresh p.2
    rw [← List.singleton_append, ← List.append_assoc, ← entries] at nodup
    obtain ⟨parameters, added, all⟩ := ih others nodup
    refine ⟨parameters, ?_, by rw [all, entries, List.append_assoc, List.singleton_append]⟩
    have new : (p.1.isEmpty || start.contains p.1) = false := by
      simpa [OrderedMap.contains] using ⟨nonempty, fresh⟩
    simp only [List.map_cons, addParameters?, cut, new, Bool.false_eq_true, if_false]
    exact added

section Bare
variable {scheme primary : String} {parameters : Attributes} {before after : List (String × String)}

theorem pack_eq (uri : String) (parameters : Attributes) :
    pack uri parameters =
      (takePrimary uri parameters).2.entries.foldl addParameter (takePrimary uri parameters).1 := rfl

/-- A bare scheme, its primary segment and a query of the other parameters, of which there is one at
least. -/
theorem pack_bareScheme (bare : ':' ∉ scheme.toList) (noQuery : '?' ∉ scheme.toList)
    (entries : parameters.entries = before ++ (primaryKey scheme, primary) :: after)
    (segment : '?' ∉ primary.toList) (more : before ++ after ≠ []) :
    pack scheme parameters = s!"{scheme}:{primary}?{queryText (before ++ after)}" := by
  have alone : ((cut? '?' scheme).map Prod.fst).getD scheme = scheme := by
    rw [cut?_eq_none noQuery]
    rfl
  obtain ⟨start, others⟩ := takePrimary_of_entries bare alone entries
  have primed : addPrimary scheme primary = s!"{scheme}:{primary}" := by
    rw [addPrimary, cut?_eq_none noQuery]
  have unasked : '?' ∉ (s!"{scheme}:{primary}").toList := by simp [toString, noQuery, segment]
  rw [pack_eq, start, others, primed, foldl_addParameter_query unasked more]
  rfl

/-- A query whose keys hold no sign and no ampersand, and whose values no ampersand, is taken apart
into its parameters. -/
theorem unpack?_query (named : isScheme scheme = true) (nonempty : primary ≠ "")
    (segment : '?' ∉ primary.toList) {ps : List (String × String)} (more : ps ≠ [])
    (nodup : ((primaryKey scheme :: ps.map Prod.fst)).Nodup)
    (told : ∀ p ∈ ps, p.1 ≠ "" ∧ '=' ∉ p.1.toList ∧ '&' ∉ p.1.toList ∧ '&' ∉ p.2.toList) :
    ∃ parameters, unpack? s!"{scheme}:{primary}?{queryText ps}" = some (scheme, parameters) ∧
      parameters.entries = (primaryKey scheme, primary) :: ps := by
  obtain ⟨bare, noQuery⟩ := not_mem_of_isScheme named
  have cutQuery : cut? '?' s!"{scheme}:{primary}?{queryText ps}" =
      some (s!"{scheme}:{primary}", queryText ps) :=
    cut?_of_eq (by simp [toString]) (by simp [toString, noQuery, segment])
  have cutScheme : cut? ':' s!"{scheme}:{primary}" = some (scheme, primary) :=
    cut?_of_eq (by simp [toString]) bare
  have pairs : pieces '&' (queryText ps) = ps.map pairText := by
    refine pieces_intercalate (List.forall_mem_map.2 fun p hp => ?_) (by simpa using more)
    obtain ⟨-, -, noMark, plain⟩ := told p hp
    simp [pairChars, noMark, plain]
  have query : (queryText ps).isEmpty = false := by
    obtain ⟨p, ps, rfl⟩ := List.exists_cons_of_ne_nil more
    have text := toList_queryText p ps
    cases empty : (queryText (p :: ps)).isEmpty with
    | false => rfl
    | true =>
      rw [String.isEmpty_iff.1 empty] at text
      simp [pairChars] at text
  have distinct : (((OrderedMap.empty.insert (primaryKey scheme) primary).entries ++ ps).map
      Prod.fst).Nodup := nodup
  obtain ⟨parameters, added, entries⟩ := addParameters?_pairTexts
    (fun p hp => ⟨(told p hp).1, (told p hp).2.1⟩) distinct
  refine ⟨parameters, ?_, entries⟩
  simp only [unpack?, Option.bind_eq_bind, cutQuery, Option.bind_some, cutScheme, named, query,
    pairs, added]
  simp [nonempty]

/-- A scheme joined with its primary segment, which stands anywhere among the parameters, and with the
others in their order. Taken apart, the URI gives the scheme, and the primary segment before the
others. -/
theorem unpack?_pack_bareScheme (named : isScheme scheme = true)
    (entries : parameters.entries = before ++ (primaryKey scheme, primary) :: after)
    (nonempty : primary ≠ "") (segment : '?' ∉ primary.toList) (more : before ++ after ≠ [])
    (told : ∀ p ∈ before ++ after,
      p.1 ≠ "" ∧ '=' ∉ p.1.toList ∧ '&' ∉ p.1.toList ∧ '&' ∉ p.2.toList) :
    pack scheme parameters = s!"{scheme}:{primary}?{queryText (before ++ after)}" ∧
      ∃ unpacked, unpack? (pack scheme parameters) = some (scheme, unpacked) ∧
        unpacked.entries = (primaryKey scheme, primary) :: (before ++ after) := by
  obtain ⟨bare, noQuery⟩ := not_mem_of_isScheme named
  have packed := pack_bareScheme bare noQuery entries segment more
  have nodup : (primaryKey scheme :: (before ++ after).map Prod.fst).Nodup := by
    have distinct := parameters.nodup
    rw [entries, (List.perm_middle.map Prod.fst).nodup_iff] at distinct
    exact distinct
  refine ⟨packed, ?_⟩
  rw [packed]
  exact unpack?_query named nonempty segment more nodup told

/-- Separators in the primary segment, in keys and in values. -/
theorem unpack?_pack_bareScheme_timer :
    let further := [("a?:", "b=c"), ("d", ":?=")]
    let parameters : Attributes := ⟨[("a?:", "b=c"), ("timerName", "x:&="), ("d", ":?=")], by decide⟩
    (isScheme "timer" = true ∧ "x:&=" ≠ "" ∧ '?' ∉ "x:&=".toList ∧ further ≠ [] ∧
      ∀ p ∈ further, p.1 ≠ "" ∧ '=' ∉ p.1.toList ∧ '&' ∉ p.1.toList ∧ '&' ∉ p.2.toList) ∧
    pack "timer" parameters = "timer:x:&=?a?:=b=c&d=:?=" ∧
    ∃ unpacked, unpack? "timer:x:&=?a?:=b=c&d=:?=" = some ("timer", unpacked) ∧
      unpacked.entries = ("timerName", "x:&=") :: further := by
  intro further parameters
  have named : isScheme "timer" = true := by decide
  have told : ∀ p ∈ further, p.1 ≠ "" ∧ '=' ∉ p.1.toList ∧ '&' ∉ p.1.toList ∧ '&' ∉ p.2.toList := by
    decide
  have place : parameters.entries =
      [("a?:", "b=c")] ++ (primaryKey "timer", "x:&=") :: [("d", ":?=")] := rfl
  obtain ⟨packed, unpacked, apart, entries⟩ := unpack?_pack_bareScheme named place (by decide)
    (by decide) (by decide) told
  have text : pack "timer" parameters = "timer:x:&=?a?:=b=c&d=:?=" := packed
  rw [text] at apart
  exact ⟨⟨named, by decide, by decide, by decide, told⟩, text, unpacked, apart, entries⟩

/-- A bare scheme with a query gets its primary segment between the two exactly if no colon stands in
the query. If one does, the URI is not taken to be bare: it stays as it is, and the primary segment
follows with the other parameters. -/
theorem pack_bareScheme_query_iff (query : String) (bare : ':' ∉ scheme.toList)
    (noQuery : '?' ∉ scheme.toList)
    (entries : parameters.entries = before ++ (primaryKey scheme, primary) :: after) :
    (pack s!"{scheme}?{query}" parameters =
        s!"{scheme}:{primary}?{query}{furtherText (before ++ after)}" ↔ ':' ∉ query.toList) ∧
      (':' ∈ query.toList → pack s!"{scheme}?{query}" parameters =
        s!"{scheme}?{query}{furtherText parameters.entries}") := by
  have cut : cut? '?' s!"{scheme}?{query}" = some (scheme, query) :=
    cut?_of_eq (by simp [toString]) noQuery
  have joined (colon : ':' ∈ query.toList) : pack s!"{scheme}?{query}" parameters =
      s!"{scheme}?{query}{furtherText parameters.entries}" := by
    have whole : contains ':' s!"{scheme}?{query}" = true :=
      contains_of_mem (by simp [toString, colon])
    rw [pack_eq, takePrimary, if_pos whole, foldl_addParameter_further (by simp [toString])]
    rfl
  refine ⟨⟨fun same colon => ?_, fun noColon => ?_⟩, joined⟩
  · -- One text goes on behind the scheme with a question mark, and the other with a colon.
    rw [joined colon] at same
    have chars := congrArg String.toList same
    simp [toString] at chars
  · have free : ':' ∉ (s!"{scheme}?{query}").toList := by simp [toString, bare, noColon]
    obtain ⟨start, others⟩ := takePrimary_of_entries free (by rw [cut]; rfl) entries
    have primed : addPrimary s!"{scheme}?{query}" primary = s!"{scheme}:{primary}?{query}" := by
      rw [addPrimary, cut]
    rw [pack_eq, start, others, primed, foldl_addParameter_further (by simp [toString])]
    rfl

theorem pack_bareScheme_query_iff_timer :
    ':' ∉ "timer".toList ∧ '?' ∉ "timer".toList ∧
      pack "timer?delay=5" ⟨[("period", "7"), ("timerName", "tick")], by decide⟩ =
        "timer:tick?delay=5&period=7" := by
  have bare : ':' ∉ "timer".toList := by decide
  have noQuery : '?' ∉ "timer".toList := by decide
  have place : (⟨[("period", "7"), ("timerName", "tick")], by decide⟩ : Attributes).entries =
      [("period", "7")] ++ (primaryKey "timer", "tick") :: [] := rfl
  have joined := pack_bareScheme_query_iff "delay=5" bare noQuery place
  exact ⟨bare, noQuery, joined.1.2 (by decide)⟩

/-- A colon in the query, and the name of the timer is no longer its primary segment. -/
theorem pack_colonInQuery :
    (OrderedMap.single "timerName" "tick").get? (primaryKey "timer") = some "tick" ∧
      pack "timer?host=a:80" (.single "timerName" "tick") = "timer?host=a:80&timerName=tick" ∧
      pack "timer?host=a:80" (.single "timerName" "tick") ≠ "timer:tick?host=a:80" := by
  decide

end Bare

end Uri
end RouteNotation
