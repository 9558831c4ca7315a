import RouteNotation.Proofs.Route.UriPairs
import RouteNotation.Route.GeneratedId
import Mathlib.Data.List.Forall2

/-!
What is left of a tree after its URIs are joined and its generated ids dropped, entry by entry.
-/

namespace RouteNotation

open Yaml Uri

/-- All keys are strings, each of which stands once. -/
def StringKeys (es : List Entry) : Prop :=
  (∀ e ∈ es, ∃ s, e.1 = .string s) ∧ DistinctNames es

def Stamped (id : String) : Prop :=
  ∃ (stem : String) (digits : List Char), digits.length = 4 ∧
    (∀ c ∈ digits, c ∈ "0123456789abcdef".toList) ∧ id = stem ++ "-" ++ String.ofList digits

def Unstamped (es : List Entry) : Prop :=
  ∀ id, (Value.string "id", Value.string id) ∈ es → ¬ Stamped id

/-- The parameters are all there, in order, each with the text of its scalar. -/
def AllParameters (ps : List Entry) (m : Attributes) : Prop :=
  List.Forall₂ (fun p q => p.1 = .string q.1 ∧ p.2.scalarText? = some q.2) ps m.entries

mutual

inductive Cleaned : Value → Value → Prop
  | null : Cleaned .null .null
  | bool (b : Bool) : Cleaned (.bool b) (.bool b)
  | int (i : Int) : Cleaned (.int i) (.int i)
  | float (x : Binary64) : Cleaned (.float x) (.float x)
  | string (s : String) : Cleaned (.string s) (.string s)
  | sequence {vs ws : List Value} : CleanedItems vs ws → Cleaned (.sequence vs) (.sequence ws)
  | mapping {es fs : List (Value × Value)} : Unpaired es → CleanedEntries none es fs →
      Cleaned (.mapping es) (.mapping fs)
  | pair {es ps fs : List (Value × Value)} {uri : String} {m : Attributes} : Paired es uri ps →
      AllParameters ps m → CleanedEntries (some (pack uri m)) es fs →
      Cleaned (.mapping es) (.mapping fs)

inductive CleanedItems : List Value → List Value → Prop
  | nil : CleanedItems [] []
  | cons {v w : Value} {vs ws : List Value} : Cleaned v w → CleanedItems vs ws →
      CleanedItems (v :: vs) (w :: ws)

/-- If there is a joined URI, it takes the place of the one written, and no parameters are left. -/
inductive CleanedEntries : Option String → List (Value × Value) → List (Value × Value) → Prop
  | nil {joined : Option String} : CleanedEntries joined [] []
  | generated {joined : Option String} {id : String} {es fs : List (Value × Value)} : Stamped id →
      CleanedEntries joined es fs →
      CleanedEntries joined ((.string "id", .string id) :: es) fs
  | uri {text : String} {v : Value} {es fs : List (Value × Value)} :
      CleanedEntries (some text) es fs →
      CleanedEntries (some text) ((.string uriKey, v) :: es) ((.string uriKey, .string text) :: fs)
  | parameters {text : String} {v : Value} {es fs : List (Value × Value)} :
      CleanedEntries (some text) es fs →
      CleanedEntries (some text) ((.string parametersKey, v) :: es) fs
  | kept {joined : Option String} {key : String} {v w : Value} {es fs : List (Value × Value)} :
      (joined.isSome → key ≠ uriKey ∧ key ≠ parametersKey) →
      (∀ id, v = .string id → key = "id" → ¬ Stamped id) → Cleaned v w →
      CleanedEntries joined es fs →
      CleanedEntries joined ((.string key, v) :: es) ((.string key, w) :: fs)

end

theorem isHexDigit_iff {c : Char} :
    GeneratedId.isHexDigit c ↔ c ∈ "0123456789abcdef".toList := by
  have digits : "0123456789abcdef".toList = ['0', '1', '2', '3', '4', '5', '6', '7', '8', '9',
    'a', 'b', 'c', 'd', 'e', 'f'] := rfl
  have code (d : Char) : c = d ↔ c.toNat = d.toNat := Char.toNat_inj.symm
  have decimal : c.isDigit ↔ 48 ≤ c.toNat ∧ c.toNat ≤ 57 := by
    rw [Char.isDigit, Bool.and_eq_true, decide_eq_true_eq, decide_eq_true_eq]
    exact Iff.rfl
  have letter : 'a' ≤ c ∧ c ≤ 'f' ↔ 97 ≤ c.toNat ∧ c.toNat ≤ 102 := Iff.rfl
  simp only [GeneratedId.isHexDigit, Bool.or_eq_true, Bool.and_eq_true, decide_eq_true_eq,
    decimal, letter, digits, List.mem_cons, List.not_mem_nil, or_false, code, Char.reduceToNat]
  omega

theorem isGenerated_iff {id : String} : GeneratedId.isGenerated id ↔ Stamped id := by
  constructor
  · intro h
    unfold GeneratedId.isGenerated at h
    split at h
    · rename_i a b c d stem same
      refine ⟨String.ofList stem.reverse, [d, c, b, a], rfl, ?_, ?_⟩
      · simp only [List.all_cons, List.all_nil, Bool.and_true, Bool.and_eq_true,
          isHexDigit_iff] at h
        simp only [List.forall_mem_cons]
        exact ⟨h.2.2.2, h.2.2.1, h.2.1, h.1, List.forall_mem_nil _⟩
      · apply String.toList_inj.1
        rw [List.reverse_eq_iff.1 same]
        simp
    · contradiction
  · rintro ⟨stem, digits, four, hex, rfl⟩
    obtain ⟨a, b, c, d, rfl⟩ : ∃ a b c d, digits = [a, b, c, d] := by
      obtain ⟨a, more, rfl⟩ := List.exists_cons_of_length_eq_add_one four
      obtain ⟨b, c, d, rfl⟩ := List.length_eq_three.1 (Nat.succ.inj four)
      exact ⟨a, b, c, d, rfl⟩
    simp only [List.forall_mem_cons, ← isHexDigit_iff] at hex
    simp [GeneratedId.isGenerated, hex]

theorem string?_packTree (v : Value) : (packTree v).string? = v.string? := by
  cases v <;> rfl

theorem isGeneratedEntry_iff {key : String} {v : Value} (untagged : v.Untagged) :
    GeneratedId.isGeneratedEntry (.string key) (packTree v) ↔
      key = "id" ∧ ∃ id, v = .string id ∧ Stamped id := by
  have here : (Value.string key).string? = some key := rfl
  rw [GeneratedId.isGeneratedEntry, string?_packTree, here, Bool.and_eq_true, decide_eq_true_eq,
    Option.some.injEq, Option.any_eq_true]
  simp only [isGenerated_iff]
  constructor
  · rintro ⟨rfl, id, same, stamped⟩
    exact ⟨rfl, id, eq_string_of_string? untagged same, stamped⟩
  · rintro ⟨rfl, id, rfl, stamped⟩
    exact ⟨rfl, id, rfl, stamped⟩

theorem forall₂_of_scalarEntries? {ps : List Entry} {qs : List (String × String)}
    (strings : ∀ p ∈ ps, ∃ s, p.1 = .string s) (h : scalarEntries? ps = some qs) :
    List.Forall₂ (fun p q => p.1 = .string q.1 ∧ p.2.scalarText? = some q.2) ps qs := by
  induction ps generalizing qs with
  | nil =>
    cases h
    exact .nil
  | cons p ps ih =>
    obtain ⟨k, v⟩ := p
    obtain ⟨⟨s, same⟩, others⟩ := List.forall_mem_cons.1 strings
    obtain rfl : k = .string s := same
    simp only [scalarEntries?, Option.bind_eq_bind, Option.bind_eq_some_iff] at h
    obtain ⟨key, first, value, text, rest, later, all⟩ := h
    cases first
    cases all
    exact .cons ⟨rfl, text⟩ (ih others later)

theorem allParameters_of_parameters? {ps : List Entry} {m : Attributes} (keys : StringKeys ps)
    (h : parameters? (.mapping ps) = some m) : AllParameters ps m := by
  obtain ⟨qs, scalars, rfl⟩ := Option.map_eq_some_iff.1 h
  have each := forall₂_of_scalarEntries? keys.1 scalars
  have names : qs.map Prod.fst = ps.filterMap fun p => p.1.string? := by
    clear keys h scalars
    induction each with
    | nil => rfl
    | @cons p q ps qs same _ ih =>
      have first : p.1.string? = some q.1 := by rw [same.1]; rfl
      simp only [List.map_cons, List.filterMap_cons, first, ih]
  have entries : (OrderedMap.ofList qs).entries = qs := by
    refine OrderedMap.entries_insertEach ?_ fun _ _ => List.not_mem_nil
    rw [names]
    exact keys.2
  rw [AllParameters, entries]
  exact each

theorem cleanedEntries_cons {joined : Option String} {key : String} {v : Value}
    {es fs : List Entry} (untagged : v.Untagged)
    (other : joined.isSome → key ≠ uriKey ∧ key ≠ parametersKey)
    (value : Cleaned v (GeneratedId.strip (packTree v))) (rest : CleanedEntries joined es fs) :
    CleanedEntries joined ((.string key, v) :: es)
      (if GeneratedId.isGeneratedEntry (.string key) (packTree v) then fs
      else (.string key, GeneratedId.strip (packTree v)) :: fs) := by
  split
  · rename_i generated
    obtain ⟨rfl, id, rfl, stamped⟩ := (isGeneratedEntry_iff untagged).1 generated
    exact .generated stamped rest
  · rename_i fresh
    refine .kept other ?_ value rest
    rintro id rfl rfl stamped
    exact fresh ((isGeneratedEntry_iff untagged).2 ⟨rfl, id, rfl, stamped⟩)

mutual

theorem cleaned_strip_packTree : {v : Value} → v.Untagged → v.Everywhere StringKeys →
    Cleaned v (GeneratedId.strip (packTree v))
  | .sequence vs, untagged, keys => by
    rw [Value.Untagged] at untagged
    rw [Value.Everywhere] at keys
    exact .sequence (cleanedItems_strip_packTree untagged keys)
  | .mapping es, untagged, keys => by
    rw [Value.Untagged] at untagged
    rw [Value.Everywhere] at keys
    rw [packTree, GeneratedId.strip]
    have entries := cleanedEntries_strip_packTree (packed? es) untagged keys.1.1 keys.2
    cases packed : packed? es with
    | none =>
      rw [packed] at entries
      exact .mapping (unpaired_of_packed? packed) entries
    | some text =>
      obtain ⟨uri, ps, m, paired, parameters, rfl⟩ := paired_of_packed? untagged packed
      rw [packed] at entries
      have below := entriesEverywhere_iff.1 keys.2 _ (mem_of_lookup? paired.2.1)
      exact .pair paired (allParameters_of_parameters? below.1 parameters) entries
  | .tagged _ _, untagged, _ => by
    rw [Value.Untagged] at untagged
    contradiction
  | .null, _, _ => .null
  | .bool b, _, _ => .bool b
  | .int i, _, _ => .int i
  | .float x, _, _ => .float x
  | .string s, _, _ => .string s

theorem cleanedItems_strip_packTree : {vs : List Value} → ItemsUntagged vs →
    ItemsEverywhere StringKeys vs →
    CleanedItems vs (GeneratedId.stripItems (packItems vs))
  | [], _, _ => .nil
  | _ :: _, untagged, keys =>
    .cons (cleaned_strip_packTree untagged.1 keys.1)
      (cleanedItems_strip_packTree untagged.2 keys.2)

theorem cleanedEntries_strip_packTree : (joined : Option String) → {es : List (Value × Value)} →
    EntriesUntagged es → (∀ e ∈ es, ∃ s, e.1 = .string s) → EntriesEverywhere StringKeys es →
    CleanedEntries joined es (GeneratedId.stripEntries (packEntries joined es))
  | _, [], _, _, _ => .nil
  | joined, (k, v) :: es, untagged, strings, keys => by
    obtain ⟨⟨key, here⟩, others⟩ := List.forall_mem_cons.1 strings
    obtain rfl : k = .string key := here
    have value := cleaned_strip_packTree untagged.1.2 keys.1
    have rest := cleanedEntries_strip_packTree joined untagged.2 others keys.2
    have here : (Value.string key).string? = some key := rfl
    cases joined with
    | none =>
      rw [packEntries, GeneratedId.stripEntries]
      exact cleanedEntries_cons untagged.1.2 nofun value rest
    | some text =>
      simp only [packEntries, here, Option.some.injEq]
      split
      · rename_i uri
        subst uri
        exact .uri rest
      · split
        · rename_i parameters
          subst parameters
          exact .parameters rest
        · rename_i notUri notParameters
          rw [GeneratedId.stripEntries]
          exact cleanedEntries_cons untagged.1.2 (fun _ => ⟨notUri, notParameters⟩) value rest

end

theorem strings_of_cleaned {joined : Option String} {es fs : List (Value × Value)} :
    CleanedEntries joined es fs → (∀ e ∈ es, ∃ s, e.1 = .string s) ∧ ∀ f ∈ fs, ∃ s, f.1 = .string s
  | .nil => ⟨List.forall_mem_nil _, List.forall_mem_nil _⟩
  | .generated _ rest | .parameters rest =>
    ⟨List.forall_mem_cons.2 ⟨⟨_, rfl⟩, (strings_of_cleaned rest).1⟩, (strings_of_cleaned rest).2⟩
  | .uri rest | .kept _ _ _ rest =>
    ⟨List.forall_mem_cons.2 ⟨⟨_, rfl⟩, (strings_of_cleaned rest).1⟩,
      List.forall_mem_cons.2 ⟨⟨_, rfl⟩, (strings_of_cleaned rest).2⟩⟩

theorem keys_sublist_of_cleaned {joined : Option String} {es fs : List (Value × Value)} :
    CleanedEntries joined es fs →
    (fs.map Prod.fst).Sublist (es.map Prod.fst)
  | .nil => .slnil
  | .generated _ rest | .parameters rest => (keys_sublist_of_cleaned rest).cons _
  | .uri rest | .kept _ _ _ rest => (keys_sublist_of_cleaned rest).cons_cons _

theorem stringKeys_of_cleaned {joined : Option String} {es fs : List Entry}
    (h : CleanedEntries joined es fs) (keys : StringKeys es) : StringKeys fs := by
  refine ⟨(strings_of_cleaned h).2, ?_⟩
  have names (es : List Entry) : (es.filterMap fun e => e.1.string?) =
      (es.map Prod.fst).filterMap Value.string? := by
    rw [List.filterMap_map]
    rfl
  have distinct := keys.2
  rw [DistinctNames, names] at distinct ⊢
  exact distinct.sublist ((keys_sublist_of_cleaned h).filterMap _)

theorem eq_string_of_cleaned {v : Value} {s : String} (h : Cleaned v (.string s)) :
    v = .string s := by
  cases h
  rfl

theorem unstamped_of_cleaned {joined : Option String} {es fs : List (Value × Value)} :
    CleanedEntries joined es fs → Unstamped fs
  | .nil => nofun
  | .generated _ rest | .parameters rest => unstamped_of_cleaned rest
  | .uri rest => by
    intro id here
    rcases List.mem_cons.1 here with first | later
    · have key : "id" = uriKey := Value.string.inj (congrArg Prod.fst first)
      exact absurd key (by decide)
    · exact unstamped_of_cleaned rest id later
  | .kept _ fresh value rest => by
    intro id here
    rcases List.mem_cons.1 here with first | later
    · cases first
      exact fresh id (eq_string_of_cleaned value) rfl
    · exact unstamped_of_cleaned rest id later

section
variable {P Q : List Entry → Prop}

mutual

/-- What a mapping has when it was cleaned, every mapping of a cleaned tree has. -/
theorem everywhere_of_cleaned (each : ∀ {joined es fs}, CleanedEntries joined es fs → P es → Q fs)
    {v w : Value} : Cleaned v w → v.Everywhere P → w.Everywhere Q
  | .null, _ | .bool _, _ | .int _, _ | .float _, _ | .string _, _ => trivial
  | .sequence items, h => itemsEverywhere_of_cleaned each items h
  | .mapping _ entries, h | .pair _ _ entries, h =>
    ⟨each entries h.1, entriesEverywhere_of_cleaned each entries h.2⟩

theorem itemsEverywhere_of_cleaned
    (each : ∀ {joined es fs}, CleanedEntries joined es fs → P es → Q fs) {vs ws : List Value} :
    CleanedItems vs ws → ItemsEverywhere P vs → ItemsEverywhere Q ws
  | .nil, _ => trivial
  | .cons first rest, h =>
    ⟨everywhere_of_cleaned each first h.1, itemsEverywhere_of_cleaned each rest h.2⟩

theorem entriesEverywhere_of_cleaned
    (each : ∀ {joined es fs}, CleanedEntries joined es fs → P es → Q fs)
    {joined : Option String} {es fs : List (Value × Value)} :
    CleanedEntries joined es fs → EntriesEverywhere P es → EntriesEverywhere Q fs
  | .nil, _ => trivial
  | .generated _ rest, h | .parameters rest, h => entriesEverywhere_of_cleaned each rest h.2
  | .uri rest, h => ⟨trivial, entriesEverywhere_of_cleaned each rest h.2⟩
  | .kept _ _ value rest, h =>
    ⟨everywhere_of_cleaned each value h.1, entriesEverywhere_of_cleaned each rest h.2⟩

end

end

mutual

theorem untagged_of_cleaned {v w : Value} : Cleaned v w → w.Untagged
  | .null | .bool _ | .int _ | .float _ | .string _ => trivial
  | .sequence items => itemsUntagged_of_cleaned items
  | .mapping _ entries | .pair _ _ entries => entriesUntagged_of_cleaned entries

theorem itemsUntagged_of_cleaned {vs ws : List Value} : CleanedItems vs ws → ItemsUntagged ws
  | .nil => trivial
  | .cons first rest => ⟨untagged_of_cleaned first, itemsUntagged_of_cleaned rest⟩

theorem entriesUntagged_of_cleaned {joined : Option String} {es fs : List (Value × Value)} :
    CleanedEntries joined es fs → EntriesUntagged fs
  | .nil => trivial
  | .generated _ rest | .parameters rest => entriesUntagged_of_cleaned rest
  | .uri rest => ⟨⟨trivial, trivial⟩, entriesUntagged_of_cleaned rest⟩
  | .kept _ _ value rest =>
    ⟨⟨trivial, untagged_of_cleaned value⟩, entriesUntagged_of_cleaned rest⟩

end

theorem lookup?_of_cleaned {key : String} (other : key ≠ "id") : {es fs : List (Value × Value)} →
    CleanedEntries none es fs → Option.Rel Cleaned (lookup? key es) (lookup? key fs)
  | _, _, .nil => .none
  | _, _, .generated _ rest => by
    rw [lookup?_cons_of_ne fun same => other (Value.string.inj same).symm]
    exact lookup?_of_cleaned other rest
  | _, _, @CleanedEntries.kept _ found _ _ _ _ _ _ value rest => by
    by_cases here : found = key
    · rw [here, lookup?_cons_self, lookup?_cons_self]
      exact .some value
    · have apart : Value.string found ≠ .string key := fun same => here (Value.string.inj same)
      rw [lookup?_cons_of_ne apart, lookup?_cons_of_ne apart]
      exact lookup?_of_cleaned other rest

theorem lookup?_before {key : String} {es fs : List Entry} {w : Value} (other : key ≠ "id")
    (entries : CleanedEntries none es fs) (found : lookup? key fs = some w) :
    ∃ v, lookup? key es = some v ∧ Cleaned v w := by
  have both := lookup?_of_cleaned other entries
  rw [found] at both
  cases here : lookup? key es with
  | none =>
    rw [here] at both
    cases both
  | some v =>
    rw [here] at both
    cases both with
    | some value => exact ⟨v, rfl, value⟩

theorem lookup?_after {key : String} {es fs : List Entry} {v : Value} (other : key ≠ "id")
    (entries : CleanedEntries none es fs) (found : lookup? key es = some v) :
    ∃ w, lookup? key fs = some w ∧ Cleaned v w := by
  have both := lookup?_of_cleaned other entries
  rw [found] at both
  cases there : lookup? key fs with
  | none =>
    rw [there] at both
    cases both
  | some w =>
    rw [there] at both
    cases both with
    | some value => exact ⟨w, rfl, value⟩

theorem lookup?_uri_of_cleaned {text : String} : {es fs : List (Value × Value)} →
    CleanedEntries (some text) es fs → (lookup? uriKey es).isSome →
    lookup? uriKey fs = some (.string text)
  | _, _, .nil, found => by cases found
  | _, _, .uri _, _ => lookup?_cons_self _ _
  | _, _, .generated _ rest, found => by
    rw [lookup?_cons_of_ne (by simp [uriKey])] at found
    exact lookup?_uri_of_cleaned rest found
  | _, _, .parameters rest, found => by
    rw [lookup?_cons_of_ne (by simp [uriKey, parametersKey])] at found
    exact lookup?_uri_of_cleaned rest found
  | _, _, .kept free _ _ rest, found => by
    have apart := fun same => (free rfl).1 (Value.string.inj same)
    rw [lookup?_cons_of_ne apart] at found ⊢
    exact lookup?_uri_of_cleaned rest found

theorem lookup?_parameters_of_cleaned {text : String} : {es fs : List (Value × Value)} →
    CleanedEntries (some text) es fs → lookup? parametersKey fs = none
  | _, _, .nil => rfl
  | _, _, .generated _ rest | _, _, .parameters rest => lookup?_parameters_of_cleaned rest
  | _, _, .uri rest => by
    rw [lookup?_cons_of_ne (by simp [uriKey, parametersKey])]
    exact lookup?_parameters_of_cleaned rest
  | _, _, .kept free _ _ rest => by
    rw [lookup?_cons_of_ne fun same => (free rfl).2 (Value.string.inj same)]
    exact lookup?_parameters_of_cleaned rest

theorem isScalar_of_cleaned {v w : Value} (h : Cleaned v w) : w.isScalar ↔ v.isScalar := by
  cases h <;> rfl

theorem scalars_of_cleaned {joined : Option String} {es fs : List (Value × Value)} :
    CleanedEntries joined es fs → ((∀ f ∈ fs, f.2.isScalar) ↔ ∀ e ∈ es,
      (joined.isSome → e.1 ≠ .string uriKey ∧ e.1 ≠ .string parametersKey) → e.2.isScalar)
  | .nil => by simp
  | .generated _ rest => by
    rw [List.forall_mem_cons, scalars_of_cleaned rest]
    exact (and_iff_right fun _ => rfl).symm
  | .uri rest => by
    rw [List.forall_mem_cons, List.forall_mem_cons, scalars_of_cleaned rest]
    exact and_congr_left fun _ => ⟨fun _ free => absurd rfl (free rfl).1, fun _ => rfl⟩
  | .parameters rest => by
    rw [List.forall_mem_cons, scalars_of_cleaned rest]
    exact (and_iff_right fun free => absurd rfl (free rfl).2).symm
  | @CleanedEntries.kept _ key _ _ _ _ free _ value rest => by
    rw [List.forall_mem_cons, List.forall_mem_cons, scalars_of_cleaned rest]
    refine and_congr_left fun _ => (isScalar_of_cleaned value).trans ?_
    refine ⟨fun scalar _ => scalar, fun scalar => scalar fun some => ?_⟩
    exact ⟨fun same => (free some).1 (Value.string.inj same),
      fun same => (free some).2 (Value.string.inj same)⟩

end RouteNotation
