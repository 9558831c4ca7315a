import RouteNotation.Proofs.Xml.PrintedTree

/-!
How deep reading goes. Main statements: `goesDeep_parse`, a depth limit ends the reading of an input
or changes nothing, by how deep the input goes, and `exceeds_of_parse`, no tree comes out that the
limit forbids.
-/

namespace RouteNotation.Xml

theorem exceeds_max (limit m n : Nat) :
    exceeds limit (max m n) = (exceeds limit m || exceeds limit n) := by
  rw [Bool.eq_iff_iff]
  simp only [exceeds, Bool.and_eq_true, Bool.or_eq_true, decide_eq_true_eq]
  omega

theorem exceeds_zero (limit : Nat) : exceeds limit 0 = false := by
  simp [exceeds]

theorem exceeds_mono {limit m n : Nat} (le : m ≤ n) (h : exceeds limit n = false) :
    exceeds limit m = false := by
  simp only [exceeds, Bool.and_eq_false_imp, decide_eq_true_eq, decide_eq_false_iff_not] at h ⊢
  omega

theorem heightOfContents_append (cs ds : List Content) :
    heightOfContents (cs ++ ds) = max (heightOfContents cs) (heightOfContents ds) := by
  induction cs with
  | nil => simp [heightOfContents]
  | cons c cs ih => cases c <;> simp [heightOfContents, ih, Nat.max_assoc]

theorem heightOfContents_reverse (cs : List Content) :
    heightOfContents cs.reverse = heightOfContents cs := by
  induction cs with
  | nil => rfl
  | cons c cs ih =>
    rw [List.reverse_cons, heightOfContents_append, ih]
    cases c <;> simp [heightOfContents, Nat.max_comm]

theorem height_close (e : OpenElement) : e.close.height = heightOfContents e.content + 1 := by
  rw [OpenElement.close, Element.height, heightOfContents_reverse]

theorem exceeds_of_readStartTag {limit depth : Nat} {c d : Cursor} {tag : StartTag}
    (h : readStartTag limit depth c = .ok (tag, d)) : exceeds limit depth = false := by
  unfold readStartTag at h
  split at h
  · contradiction
  · split at h
    · contradiction
    · rename_i within
      exact Bool.eq_false_iff.2 within

/-- Reading goes this deep: a limit that is exceeded there ends it, any other changes nothing. -/
structure GoesDeep {α : Type} (depth : Nat) (read : Nat → Except Error α) : Prop where
  ends : ∀ limit, exceeds limit depth →
    ∃ p, read limit = .error ((Fault.tooDeep limit).errorAt p)
  passes : ∀ limit, exceeds limit depth = false → read limit = read 0

namespace GoesDeep
variable {α β : Type} {m n : Nat} {x : Nat → Except Error α} {y z : Nat → Except Error β}

theorem of_eq (same : ∀ limit, x limit = x 0) : GoesDeep 0 x where
  ends limit struck := by simp [exceeds_zero] at struck
  passes limit _ := same limit

/-- Only the first part knows the limit. -/
theorem follow (first : GoesDeep m x)
    (fails : ∀ limit e, x limit = .error e → y limit = .error e)
    (follows : ∀ limit, x limit = x 0 → y limit = y 0) : GoesDeep m y where
  ends limit struck := by
    obtain ⟨p, error⟩ := first.ends limit struck
    exact ⟨p, fails limit _ error⟩
  passes limit passed := follows limit (first.passes limit passed)

theorem stop (first : GoesDeep m x) {e : Error} (wrong : x 0 = .error e)
    (fails : ∀ limit e, x limit = .error e → y limit = .error e) : GoesDeep m y :=
  first.follow fails fun limit same => by rw [fails 0 e wrong, fails limit e (same.trans wrong)]

/-- Two parts go as deep as the deeper one. -/
theorem next (first : GoesDeep m x) {a : α} (read : x 0 = .ok a)
    (fails : ∀ limit e, x limit = .error e → y limit = .error e)
    (goes : ∀ limit, x limit = .ok a → y limit = z limit) (second : GoesDeep n z) :
    GoesDeep (max m n) y where
  ends limit struck := by
    cases here : exceeds limit m with
    | true =>
      obtain ⟨p, error⟩ := first.ends limit here
      exact ⟨p, fails limit _ error⟩
    | false =>
      rw [exceeds_max, here, Bool.false_or] at struck
      rw [goes limit ((first.passes limit here).trans read)]
      exact second.ends limit struck
  passes limit passed := by
    rw [exceeds_max, Bool.or_eq_false_iff] at passed
    rw [goes limit ((first.passes limit passed.1).trans read), goes 0 read]
    exact second.passes limit passed.2

end GoesDeep

theorem goesDeep_readStartTag (depth : Nat) (c : Cursor) :
    ∃ n, GoesDeep n (readStartTag · depth c) ∧
      ∀ tag d, readStartTag 0 depth c = .ok (tag, d) → n = depth := by
  cases opened : readByte 60 c with
  | error e =>
    have wrong : ∀ limit, readStartTag limit depth c = .error e := by
      intro limit
      rw [readStartTag, opened]
    refine ⟨0, .of_eq fun limit => (wrong limit).trans (wrong 0).symm, fun tag d read => ?_⟩
    cases (wrong 0).symm.trans read
  | ok inside =>
    refine ⟨depth, ⟨fun limit struck => ⟨inside.position, ?_⟩, fun limit passed => ?_⟩,
      fun _ _ _ => rfl⟩
    · simp only [readStartTag, opened, struck, if_true]
    · simp only [readStartTag, opened, passed]
      rfl

/-- A start tag comes next, or else no limit matters. -/
theorem readMarkup_startTag_or (name : String) (c : Cursor) :
    (∀ limit depth, readMarkup limit depth name c =
      (readStartTag limit depth c).map fun r => (.startTag r.1, r.2)) ∨
    ∀ limit depth, readMarkup limit depth name c = readMarkup 1 2 name c := by
  by_cases atEnd : c.atEnd
  · exact .inr fun _ _ => by simp only [readMarkup, if_pos atEnd]
  by_cases endTag : c.startsWith endTagStart
  · exact .inr fun _ _ => by simp only [readMarkup, if_neg atEnd, if_pos endTag]
  by_cases comment : c.startsWith commentStart
  · exact .inr fun _ _ => by simp only [readMarkup, if_neg atEnd, if_neg endTag, if_pos comment]
  by_cases literal : c.startsWith literalStart
  · exact .inr fun _ _ => by
      simp only [readMarkup, if_neg atEnd, if_neg endTag, if_neg comment, if_pos literal]
  by_cases instruction : c.startsWith instructionStart
  · exact .inr fun _ _ => by
      simp only [readMarkup, if_neg atEnd, if_neg endTag, if_neg comment, if_neg literal,
        if_pos instruction]
  by_cases bracket : c.current? = some 60
  · refine .inl fun limit depth => ?_
    simp only [readMarkup, if_neg atEnd, if_neg endTag, if_neg comment, if_neg literal,
      if_neg instruction, if_pos bracket]
    cases readStartTag limit depth c <;> rfl
  · exact .inr fun _ _ => by
      simp only [readMarkup, if_neg atEnd, if_neg endTag, if_neg comment, if_neg literal,
        if_neg instruction, if_neg bracket]

/-- How deep the next piece of markup goes: only a start tag opens an element. -/
def Markup.depth (depth : Nat) : Markup → Nat
  | .startTag _ => depth
  | .endTag | .characters _ | .nothing => 0

theorem goesDeep_readMarkup (depth : Nat) (name : String) (c : Cursor) :
    ∃ n, GoesDeep n (readMarkup · depth name c) ∧
      ∀ m d, readMarkup 0 depth name c = .ok (m, d) → n = m.depth depth := by
  rcases readMarkup_startTag_or name c with start | other
  · obtain ⟨n, deep, read⟩ := goesDeep_readStartTag depth c
    refine ⟨n, ?_, fun m d markup => ?_⟩
    · simp only [start]
      refine deep.follow (fun limit e wrong => ?_) fun limit same => by rw [same]
      rw [wrong]
      rfl
    · rw [start] at markup
      cases found : readStartTag 0 depth c with
      | error e =>
        rw [found] at markup
        cases markup
      | ok r =>
        rw [found] at markup
        cases markup
        exact read r.1 r.2 found
  · refine ⟨0, .of_eq fun limit => (other limit depth).trans (other 0 depth).symm, ?_⟩
    intro m d markup
    cases m with
    | startTag tag =>
      -- A limit of one would strike at a start tag at a depth of two.
      have tag := readStartTag_of_readMarkup ((other 0 depth).symm.trans markup)
      cases exceeds_of_readStartTag tag
    | endTag | characters | nothing => rfl

/-- How deep the open elements and all that they hold so far go. -/
def openHeight : List OpenElement → Nat
  | [] => 0
  | e :: parents => max (parents.length + 1 + heightOfContents e.content) (openHeight parents)

section Content
variable {top : OpenElement} {parents : List OpenElement} {c d : Cursor} {m : Markup} {n : Nat}

theorem goesDeep_of_markup (markup : readMarkup 0 (parents.length + 2) top.name c = .ok (m, d))
    {rest : Nat → Read Element} (deep : GoesDeep n rest)
    (goes : ∀ limit, readMarkup limit (parents.length + 2) top.name c = .ok (m, d) →
      readContent limit top parents c = rest limit) :
    GoesDeep (max (m.depth (parents.length + 2)) n) (readContent · top parents c) := by
  obtain ⟨_, first, depth⟩ := goesDeep_readMarkup (parents.length + 2) top.name c
  rw [← depth m d markup]
  exact first.next markup (fun _ _ => readContent_error) goes deep

/-- By induction on the run without a limit: each piece of markup adds its depth to that of the
rest, which counts what is open already. -/
theorem goesDeep_readContent (top : OpenElement) (parents : List OpenElement) (c : Cursor) :
    ∃ n, GoesDeep n (readContent · top parents c) ∧
      ∀ e d, readContent 0 top parents c = .ok (e, d) →
        e.height = max n (openHeight (top :: parents)) := by
  fun_induction readContent 0 top parents c with
  | case1 top parents c e wrong =>
    obtain ⟨n, first, -⟩ := goesDeep_readMarkup (parents.length + 2) top.name c
    refine ⟨n, first.stop wrong fun _ _ => readContent_error, fun e d read => ?_⟩
    cases read
  | case2 top parents c d markup ih =>
    obtain ⟨n, deep, height⟩ := ih
    refine ⟨_, goesDeep_of_markup markup deep fun _ => readContent_nothing, fun e d read => ?_⟩
    rw [height e d read, Markup.depth, Nat.zero_max]
  | case3 top parents c text d markup ih =>
    obtain ⟨n, deep, height⟩ := ih
    refine ⟨_, goesDeep_of_markup markup deep fun _ => readContent_text, fun e d read => ?_⟩
    rw [height e d read, Markup.depth, Nat.zero_max]
    rfl
  | case4 top parents c tag d markup closed ih =>
    obtain ⟨n, deep, height⟩ := ih
    refine ⟨_, goesDeep_of_markup markup deep fun limit same => ?_, fun e d read => ?_⟩
    · rw [readContent_startTag same, if_pos closed]
    · rw [height e d read]
      simp only [Markup.depth, openHeight, OpenElement.add, heightOfContents, Element.leaf,
        Element.height]
      omega
  | case5 top parents c tag d markup opened ih =>
    obtain ⟨n, deep, height⟩ := ih
    refine ⟨_, goesDeep_of_markup markup deep fun limit same => ?_, fun e d read => ?_⟩
    · rw [readContent_startTag same, if_neg opened]
    · rw [height e d read]
      simp only [Markup.depth, openHeight, heightOfContents, List.length_cons]
      omega
  | case6 top c d markup =>
    have whole : GoesDeep 0 fun _ => (.ok (top.close, d) : Read Element) := .of_eq fun _ => rfl
    refine ⟨_, goesDeep_of_markup markup whole fun _ => readContent_endTag, fun e d read => ?_⟩
    cases read
    simp only [Markup.depth, openHeight, height_close, List.length_nil]
    omega
  | case7 top c d parent parents again markup ih =>
    obtain ⟨n, deep, height⟩ := ih
    refine ⟨_, goesDeep_of_markup markup deep fun _ => readContent_endTag, fun e d read => ?_⟩
    rw [height e d read]
    simp only [Markup.depth, openHeight, OpenElement.add, heightOfContents, height_close,
      List.length_cons]
    omega

end Content

theorem goesDeep_readElement (c : Cursor) :
    ∃ n, GoesDeep n (readElement · c) ∧ ∀ e d, readElement 0 c = .ok (e, d) → e.height = n := by
  obtain ⟨m, first, depth⟩ := goesDeep_readStartTag 1 c
  have fails : ∀ limit e, readStartTag limit 1 c = .error e → readElement limit c = .error e := by
    intro limit e wrong
    rw [readElement, wrong]
  cases start : readStartTag 0 1 c with
  | error e =>
    refine ⟨m, first.stop start fails, fun f d read => ?_⟩
    cases (fails 0 e start).symm.trans read
  | ok r =>
    obtain ⟨tag, d⟩ := r
    have one : m = 1 := depth tag d start
    cases closed : tag.closed with
    | true =>
      have leaf : ∀ limit, readStartTag limit 1 c = .ok (tag, d) →
          readElement limit c = .ok (.leaf tag.name tag.attributes, d) := by
        intro limit same
        rw [readElement, same]
        simp only [closed, if_true]
      refine ⟨_, first.next start fails leaf (.of_eq fun _ => rfl), fun e d read => ?_⟩
      cases (leaf 0 start).symm.trans read
      rw [one]
      rfl
    | false =>
      have inside : ∀ limit, readStartTag limit 1 c = .ok (tag, d) →
          readElement limit c = readContent limit ⟨tag.name, tag.attributes, []⟩ [] d := by
        intro limit same
        rw [readElement, same]
        simp only [closed, Bool.false_eq_true, if_false]
      obtain ⟨n, rest, height⟩ := goesDeep_readContent ⟨tag.name, tag.attributes, []⟩ [] d
      refine ⟨_, first.next start fails inside rest, fun e d read => ?_⟩
      rw [inside 0 start] at read
      rw [height e d read, one, Nat.max_comm]
      rfl

/-- An input goes as deep as its tree, if it has one. -/
theorem goesDeep_parse (bytes : List UInt8) :
    ∃ n, GoesDeep n (parse · bytes) ∧ ∀ root, parse 0 bytes = .ok root → root.height = n := by
  have early : ∀ {e : Error}, (∀ limit, parse limit bytes = .error e) →
      ∃ n, GoesDeep n (parse · bytes) ∧ ∀ root, parse 0 bytes = .ok root → root.height = n := by
    intro e wrong
    refine ⟨0, .of_eq fun limit => (wrong limit).trans (wrong 0).symm, fun root read => ?_⟩
    cases (wrong 0).symm.trans read
  cases prolog : skipMisc (skipByteOrderMark (.ofBytes bytes)) with
  | error e => exact early fun limit => by rw [parse, prolog]
  | ok c =>
    cases atEnd : c.atEnd with
    | true =>
      have wrong : ∀ limit, parse limit bytes = .error (Fault.missingRoot.errorAt c.position) := by
        intro limit
        simp only [parse, prolog, atEnd, if_true]
      exact early wrong
    | false =>
      obtain ⟨n, deep, height⟩ := goesDeep_readElement c
      refine ⟨n, deep.follow (fun limit e wrong => ?_) fun limit same => ?_, fun root read => ?_⟩
      · simp only [parse, prolog, atEnd, wrong, Bool.false_eq_true, if_false]
      · simp only [parse, prolog, same]
      · simp only [parse, prolog, atEnd, Bool.false_eq_true, if_false] at read
        split at read
        · cases read
        · rename_i whole behind found
          split at read
          · cases read
          · split at read <;> cases read
            exact height _ _ found

/-- A tree that is read is no deeper than the limit. -/
theorem exceeds_of_parse {limit : Nat} {bytes : List UInt8} {e : Element}
    (h : parse limit bytes = .ok e) : exceeds limit e.height = false := by
  obtain ⟨n, deep, height⟩ := goesDeep_parse bytes
  cases struck : exceeds limit n with
  | true =>
    obtain ⟨p, error⟩ := deep.ends limit struck
    cases h.symm.trans error
  | false => rwa [height e ((deep.passes limit struck).symm.trans h)]

end RouteNotation.Xml
