import RouteNotation.Xml.Element
import RouteNotation.Xml.Entity

/-!
All the ways to write a tree. Characters can be written as references, white space and comments can
stand between pieces, and tags have more than one form; what is meant is always one tree.
-/

namespace RouteNotation.Xml

/-- A run of white space, which may be empty. -/
def Spaces (cs : List Char) : Prop := ∀ c ∈ cs, c ∈ [' ', '\t', '\n', '\r']

instance (cs : List Char) : Decidable (Spaces cs) := List.decidableBAll _ cs

/-- The character is the digit `d` of a base, in small or capital letters. -/
def DigitSpelling (base d : Nat) (c : Char) : Prop :=
  d < base ∧ c ∈ [Nat.digitChar d, (Nat.digitChar d).toUpper]

instance (base d : Nat) (c : Char) : Decidable (DigitSpelling base d c) :=
  inferInstanceAs (Decidable (d < base ∧ c ∈ [Nat.digitChar d, (Nat.digitChar d).toUpper]))

/-- Digits that stand for a number, after any number of zeros. -/
inductive NumberSpelling (base : Nat) : Nat → List Char → Prop
  | digit {d : Nat} {c : Char} : DigitSpelling base d c → NumberSpelling base d [c]
  | more {n d : Nat} {cs : List Char} {c : Char} : NumberSpelling base n cs →
      DigitSpelling base d c → NumberSpelling base (n * base + d) (cs ++ [c])

def predefinedEntities : List (Char × String) :=
  [('&', "amp"), ('<', "lt"), ('>', "gt"), ('"', "quot"), ('\'', "apos")]

/-- One character of a text or a value: itself where it is plain, or a reference. -/
inductive CharSpelling (plain : Char → Prop) : Char → List Char → Prop
  | plain {c : Char} : plain c → CharSpelling plain c [c]
  | entity {c : Char} {name : String} : (c, name) ∈ predefinedEntities →
      CharSpelling plain c ('&' :: (name.toList ++ [';']))
  | decimal {c : Char} {digits : List Char} : NumberSpelling 10 c.toNat digits →
      CharSpelling plain c ('&' :: ('#' :: digits ++ [';']))
  | hexadecimal {c : Char} {digits : List Char} : NumberSpelling 16 c.toNat digits →
      CharSpelling plain c ('&' :: ('#' :: 'x' :: digits ++ [';']))

inductive DataSpelling (plain : Char → Prop) : List Char → List Char → Prop
  | nil : DataSpelling plain [] []
  | cons {c : Char} {text form forms : List Char} : CharSpelling plain c form →
      DataSpelling plain text forms → DataSpelling plain (c :: text) (form ++ forms)

def TextSpelling (text : String) (cs : List Char) : Prop :=
  DataSpelling (fun c => c ≠ '&' ∧ c ≠ '<') text.toList cs

/-- A value in quotes of either kind. -/
def ValueSpelling (value : String) (cs : List Char) : Prop :=
  ∃ quote ∈ ['"', '\''], ∃ form,
    DataSpelling (fun c => c ≠ '&' ∧ c ≠ quote) value.toList form ∧ cs = quote :: (form ++ [quote])

inductive AttributeSpelling : String × String → List Char → Prop
  | equals {name value : String} {before after cs : List Char} : Spaces before → Spaces after →
      ValueSpelling value cs →
      AttributeSpelling (name, value) (name.toList ++ (before ++ '=' :: (after ++ cs)))

/-- Attributes in order, with white space around them. -/
inductive AttributesSpelling : List (String × String) → List Char → Prop
  | nil {gap : List Char} : Spaces gap → AttributesSpelling [] gap
  | cons {a : String × String} {as : List (String × String)} {gap cs ds : List Char} :
      Spaces gap → AttributeSpelling a cs → AttributesSpelling as ds →
      AttributesSpelling (a :: as) (gap ++ (cs ++ ds))

/-- The name of an element and its attributes, which a space must divide. -/
inductive TagSpelling (name : String) : List (String × String) → List Char → Prop
  | name : TagSpelling name [] name.toList
  | spaced {as : List (String × String)} {c : Char} {ds : List Char} : Spaces [c] →
      AttributesSpelling as ds → TagSpelling name as (name.toList ++ c :: ds)

/-- How comments and processing instructions begin and end. -/
def layoutSections : List (String × String) := [("<!--", "-->"), ("<?", "?>")]

/-- White space, comments and processing instructions, which mean nothing. -/
inductive LayoutSpelling : List Char → Prop
  | spaces {gap : List Char} : Spaces gap → LayoutSpelling gap
  | passed {gap body rest : List Char} {start stop : String} : Spaces gap →
      (start, stop) ∈ layoutSections → ¬ stop.toList <:+: body → LayoutSpelling rest →
      LayoutSpelling (gap ++ (start.toList ++ (body ++ (stop.toList ++ rest))))

def endTagSpelling (name : String) (gap : List Char) : List Char :=
  "</".toList ++ (name.toList ++ (gap ++ ['>']))

mutual

/-- An element that holds nothing, one text that is not blank, or elements. -/
inductive ElementSpelling : Element → List Char → Prop
  | empty {name : String} {attributes : Attributes} {tag : List Char} :
      TagSpelling name attributes.entries tag →
      ElementSpelling ⟨name, attributes, []⟩ ('<' :: (tag ++ ['/', '>']))
  | text {name value : String} {attributes : Attributes} {tag cs gap : List Char} :
      TagSpelling name attributes.entries tag → Text.isBlankText value = false →
      TextSpelling value cs → Spaces gap →
      ElementSpelling ⟨name, attributes, [.text value]⟩
        ('<' :: (tag ++ '>' :: (cs ++ endTagSpelling name gap)))
  | elements {name : String} {attributes : Attributes} {children : List Content}
      {tag cs gap : List Char} :
      TagSpelling name attributes.entries tag → ContentsSpelling children cs → Spaces gap →
      ElementSpelling ⟨name, attributes, children⟩
        ('<' :: (tag ++ '>' :: (cs ++ endTagSpelling name gap)))

/-- Elements with layout before, between and behind them. -/
inductive ContentsSpelling : List Content → List Char → Prop
  | nil {layout : List Char} : LayoutSpelling layout → ContentsSpelling [] layout
  | cons {e : Element} {rest : List Content} {layout cs ds : List Char} :
      LayoutSpelling layout → ElementSpelling e cs → ContentsSpelling rest ds →
      ContentsSpelling (.element e :: rest) (layout ++ (cs ++ ds))

end

/-- A document: the root with layout around it, and a byte order mark or none before all. -/
inductive DocumentSpelling : Element → List Char → Prop
  | document {e : Element} {mark before cs after : List Char} : mark ∈ [[], ['\uFEFF']] →
      LayoutSpelling before → ElementSpelling e cs → LayoutSpelling after →
      DocumentSpelling e (mark ++ (before ++ (cs ++ after)))

section Numbers
variable {base bound d n : Nat} {c : Char} {cs : List Char}

theorem digit?_of_spelling (small : base ≤ 16) (h : DigitSpelling base d c) :
    Numeral.digit? base c = some d ∧ c.isAlphanum := by
  have all : ∀ base ≤ 16, ∀ d < base,
      (Numeral.digit? base (Nat.digitChar d) = some d ∧ (Nat.digitChar d).isAlphanum) ∧
      (Numeral.digit? base (Nat.digitChar d).toUpper = some d ∧
        (Nat.digitChar d).toUpper.isAlphanum) := by decide
  obtain ⟨below, form⟩ := h
  simp only [List.mem_cons, List.not_mem_nil, or_false] at form
  rcases form with rfl | rfl
  · exact (all base small d below).1
  · exact (all base small d below).2

theorem digits?_append (cs ds : List Char) (total : Nat) :
    Numeral.digits? base (cs ++ ds) total =
      (Numeral.digits? base cs total).bind (Numeral.digits? base ds) := by
  induction cs generalizing total with
  | nil => rfl
  | cons c cs ih =>
    rw [List.cons_append, Numeral.digits?, Numeral.digits?]
    cases Numeral.digit? base c with
    | none => rfl
    | some d => exact ih _

/-- A number is read from its digits, none of which could be a sign or the end of a reference. -/
theorem digits?_of_spelling (small : base ≤ 16) (h : NumberSpelling base n cs) :
    Numeral.digits? base cs 0 = some n ∧ cs ≠ [] ∧ ∀ x ∈ cs, x.isAlphanum := by
  induction h with
  | digit digit =>
    obtain ⟨value, letter⟩ := digit?_of_spelling small digit
    refine ⟨?_, List.cons_ne_nil _ _, List.forall_mem_singleton.2 letter⟩
    simp [Numeral.digits?, value]
  | more _ digit ih =>
    obtain ⟨value, letter⟩ := digit?_of_spelling small digit
    obtain ⟨number, _, letters⟩ := ih
    refine ⟨?_, by simp, ?_⟩
    · rw [digits?_append, number, Option.bind_some]
      simp [Numeral.digits?, value]
    · exact List.forall_mem_append.2 ⟨letters, List.forall_mem_singleton.2 letter⟩

theorem readBelow?_of_spelling (small : base ≤ 16) (below : n < bound)
    (h : NumberSpelling base n cs) : Numeral.readBelow? base bound cs = some n := by
  obtain ⟨number, some, letters⟩ := digits?_of_spelling small h
  have nonempty : cs.isEmpty = false := by simpa using some
  unfold Numeral.readBelow? Numeral.read?
  split
  · rename_i rest
    exact absurd (letters '+' List.mem_cons_self) (by decide)
  · simp [nonempty, number, below]

theorem char?_toNat (c : Char) : Numeral.char? c.toNat = some c := by
  have valid : c.toNat.isValidChar := c.valid
  rw [Numeral.char?, dif_pos valid]
  rfl

theorem toNat_lt_size (c : Char) : c.toNat < UInt32.size := c.val.toNat_lt

end Numbers

section Data
variable {plain : Char → Prop} {c : Char} {form : List Char}

theorem entityChar?_of_predefined {name : String} (h : (c, name) ∈ predefinedEntities) :
    entityChar? name.toList = some c ∧ ∀ x ∈ name.toList, x.isAlphanum := by
  have all : ∀ p ∈ predefinedEntities,
      entityChar? p.2.toList = some p.1 ∧ p.2.toList.all Char.isAlphanum := by decide
  exact ⟨(all _ h).1, List.all_eq_true.1 (all _ h).2⟩

theorem entityChar?_decimal {digits : List Char} (h : NumberSpelling 10 c.toNat digits) :
    entityChar? ('#' :: digits) = some c := by
  have number := readBelow?_of_spelling (by decide) (toNat_lt_size c) h
  have noMark : ∀ rest, digits ≠ 'x' :: rest := by
    rintro rest rfl
    have none : Numeral.readBelow? 10 UInt32.size ('x' :: rest) = none := rfl
    rw [none] at number
    contradiction
  rw [entityChar?, number, Option.bind_some, char?_toNat]
  exact noMark

theorem entityChar?_hexadecimal {digits : List Char} (h : NumberSpelling 16 c.toNat digits) :
    entityChar? ('#' :: 'x' :: digits) = some c := by
  have number := readBelow?_of_spelling (by decide) (toNat_lt_size c) h
  rw [entityChar?, number, Option.bind_some, char?_toNat]

theorem replaceEntities_pending {pending name rest : List Char} (free : ';' ∉ name)
    (known : entityChar? (pending.reverse ++ name) = some c) :
    replaceEntities (some pending) (name ++ ';' :: rest) =
      (c :: ·) <$> replaceEntities none rest := by
  induction name generalizing pending with
  | nil =>
    rw [List.append_nil] at known
    rw [List.nil_append, replaceEntities]
    simp only [if_true, known]
    rfl
  | cons x name ih =>
    rw [List.mem_cons, not_or] at free
    rw [List.cons_append, replaceEntities]
    simp only [Ne.symm free.1, if_false]
    exact ih free.2 (by simpa using known)

/-- What is between an ampersand and a semicolon is replaced as a whole. -/
theorem replaceEntities_reference {name rest : List Char} (free : ';' ∉ name)
    (known : entityChar? name = some c) :
    replaceEntities none ('&' :: (name ++ ';' :: rest)) =
      (c :: ·) <$> replaceEntities none rest := by
  rw [replaceEntities]
  exact replaceEntities_pending free known

/-- A character that is not spelled as itself is spelled as a reference with a name. -/
theorem plain_or_reference (h : CharSpelling plain c form) :
    plain c ∧ form = [c] ∨ ∃ name, form = '&' :: (name ++ [';']) ∧ entityChar? name = some c ∧
      ∀ x ∈ name, x.isAlphanum ∨ x = '#' := by
  cases h with
  | plain here => exact .inl ⟨here, rfl⟩
  | @entity name known =>
    obtain ⟨value, letters⟩ := entityChar?_of_predefined known
    exact .inr ⟨name.toList, rfl, value, fun x hx => .inl (letters x hx)⟩
  | @decimal digits number =>
    obtain ⟨_, _, letters⟩ := digits?_of_spelling (by decide) number
    refine .inr ⟨'#' :: digits, rfl, entityChar?_decimal number, ?_⟩
    exact List.forall_mem_cons.2 ⟨.inr rfl, fun x hx => .inl (letters x hx)⟩
  | @hexadecimal digits number =>
    obtain ⟨_, _, letters⟩ := digits?_of_spelling (by decide) number
    refine .inr ⟨'#' :: 'x' :: digits, rfl, entityChar?_hexadecimal number, ?_⟩
    exact List.forall_mem_cons.2 ⟨.inr rfl, List.forall_mem_cons.2
      ⟨.inl (by decide), fun x hx => .inl (letters x hx)⟩⟩

theorem replaceEntities_spelling (h : CharSpelling plain c form) (free : ¬ plain '&')
    (rest : List Char) :
    replaceEntities none (form ++ rest) = (c :: ·) <$> replaceEntities none rest := by
  rcases plain_or_reference h with ⟨here, rfl⟩ | ⟨name, rfl, value, letters⟩
  · have other : c ≠ '&' := by
      rintro rfl
      exact free here
    rw [List.singleton_append, replaceEntities]
    simp only [other, if_false]
    rfl
  · have noEnd : ';' ∉ name := by
      intro there
      rcases letters ';' there with letter | mark
      · exact absurd letter (by decide)
      · exact absurd mark (by decide)
    rw [List.cons_append, List.append_assoc]
    exact replaceEntities_reference noEnd value

theorem replaceEntities_data {text forms : List Char} (h : DataSpelling plain text forms)
    (free : ¬ plain '&') : replaceEntities none forms = .ok text := by
  induction h with
  | nil => rfl
  | cons char _ ih =>
    rw [replaceEntities_spelling char free, ih]
    rfl

/-- Which characters can stand in a spelling: plain ones, and those of references. -/
theorem mem_spelling (h : CharSpelling plain c form) :
    ∀ x ∈ form, plain x ∨ x.isAlphanum ∨ x ∈ ['&', '#', ';'] := by
  intro x hx
  rcases plain_or_reference h with ⟨here, rfl⟩ | ⟨name, rfl, _, letters⟩
  · rw [List.mem_singleton.1 hx]
    exact .inl here
  · simp only [List.mem_cons, List.mem_append, List.not_mem_nil, or_false] at hx ⊢
    rcases hx with rfl | hx | rfl
    · exact .inr (.inr (.inl rfl))
    · rcases letters x hx with letter | mark
      · exact .inr (.inl letter)
      · exact .inr (.inr (.inr (.inl mark)))
    · exact .inr (.inr (.inr (.inr rfl)))

/-- A character that must not be plain stands nowhere, unless references are made of it. -/
theorem not_mem_data {text forms : List Char} (h : DataSpelling plain text forms) {stop : Char}
    (free : ¬ plain stop) (letter : stop.isAlphanum = false) (mark : stop ∉ ['&', '#', ';']) :
    stop ∉ forms := by
  induction h with
  | nil => exact List.not_mem_nil
  | cons char _ ih =>
    rw [List.mem_append, not_or]
    refine ⟨fun there => ?_, ih⟩
    rcases mem_spelling char stop there with plain | alphanum | other
    · exact free plain
    · rw [letter] at alphanum
      contradiction
    · exact mark other

theorem data_of_plain {cs : List Char} (h : ∀ c ∈ cs, plain c) : DataSpelling plain cs cs := by
  induction cs with
  | nil => exact .nil
  | cons c cs ih =>
    obtain ⟨first, others⟩ := List.forall_mem_cons.1 h
    exact .cons (.plain first) (ih others)

end Data

end RouteNotation.Xml
