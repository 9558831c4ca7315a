import RouteNotation.Xml.Parser

/-!
Trees whose names can stand in markup. Main statement: every tree that is read is such a tree, so
the check that printing relies on has been made for it.
-/

namespace RouteNotation.Xml

mutual

/-- Every element in the tree, and every attribute, has a valid name. -/
def Element.WellNamed : Element → Prop
  | ⟨name, attributes, children⟩ =>
    isValidName name ∧ (∀ key ∈ attributes.keys, isValidName key) ∧ ContentsWellNamed children

def ContentsWellNamed : List Content → Prop
  | [] => True
  | .element e :: rest => e.WellNamed ∧ ContentsWellNamed rest
  | .text _ :: rest => ContentsWellNamed rest

end

mutual

def Element.decideWellNamed : (e : Element) → Decidable e.WellNamed
  | ⟨name, attributes, children⟩ =>
    have := decideContentsWellNamed children
    inferInstanceAs (Decidable (isValidName name ∧ (∀ key ∈ attributes.keys, isValidName key) ∧
      ContentsWellNamed children))

def decideContentsWellNamed : (cs : List Content) → Decidable (ContentsWellNamed cs)
  | [] => isTrue trivial
  | .element e :: rest =>
    have := e.decideWellNamed
    have := decideContentsWellNamed rest
    inferInstanceAs (Decidable (e.WellNamed ∧ ContentsWellNamed rest))
  | .text _ :: rest => decideContentsWellNamed rest

end

instance (e : Element) : Decidable e.WellNamed := e.decideWellNamed

theorem contentsWellNamed_append {cs ds : List Content} :
    ContentsWellNamed (cs ++ ds) ↔ ContentsWellNamed cs ∧ ContentsWellNamed ds := by
  induction cs with
  | nil => simp [ContentsWellNamed]
  | cons c cs ih => cases c <;> simp [ContentsWellNamed, ih, and_assoc]

theorem contentsWellNamed_reverse {cs : List Content} :
    ContentsWellNamed cs.reverse ↔ ContentsWellNamed cs := by
  induction cs with
  | nil => rfl
  | cons c cs ih =>
    rw [List.reverse_cons, contentsWellNamed_append, ih]
    cases c <;> simp [ContentsWellNamed, and_comm]

theorem of_decodeText_encode {bytes : List UInt8} {c d : Cursor} {s : String}
    (h : decodeText bytes c = .ok (s, d)) : Utf8.encode s = bytes := by
  unfold decodeText at h
  split at h
  · rename_i text ht
    cases h
    exact Utf8.encode_of_decode? ht
  · cases h

theorem isValidName_of_readName {c d : Cursor} {s : String} (h : readName c = .ok (s, d)) :
    isValidName s := by
  unfold readName at h
  split at h
  · rename_i starts
    have bytes := of_decodeText_encode h
    unfold startsName Cursor.current? at starts
    cases hr : c.rest with
    | nil => simp [hr] at starts
    | cons b rest =>
      have first : isNameStart b = true := by simpa [hr] using starts
      have passed : isNameByte b = true := by simp [isNameByte, first]
      rw [hr, List.takeWhile_cons_of_pos passed] at bytes
      simp [isValidName, bytes, first]
  · cases h

theorem keys_of_readAttributes {attributes result : Attributes} {c d : Cursor}
    (valid : ∀ key ∈ attributes.keys, isValidName key)
    (h : readAttributes attributes c = .ok (result, d)) :
    ∀ key ∈ result.keys, isValidName key := by
  fun_induction readAttributes attributes c with
  | case1 => cases h
  | case2 =>
    simp only [Except.ok.injEq, Prod.mk.injEq] at h
    exact h.1 ▸ valid
  | case3 => cases h
  | case4 => cases h
  | case5 attributes c start _ _ name value e ha new ih =>
    apply ih _ h
    intro key hk
    have named : isValidName name := by
      unfold readAttribute at ha
      split at ha
      · cases ha
      · rename_i hn
        split at ha
        · cases ha
        · split at ha <;> cases ha
          exact isValidName_of_readName hn
    simp only [OrderedMap.insert, OrderedMap.keys_update] at hk
    split at hk
    · exact valid key hk
    · rcases List.mem_append.1 hk with hk | hk
      · exact valid key hk
      · exact List.mem_singleton.1 hk ▸ named

/-- A tag that opens an element with valid names. -/
def StartTag.WellNamed (tag : StartTag) : Prop :=
  isValidName tag.name ∧ ∀ key ∈ tag.attributes.keys, isValidName key

theorem eq_of_map_readByte {α : Type} {b : UInt8} {c d : Cursor} {m n : α}
    (h : (readByte b c).map (fun c => (m, c)) = .ok (n, d)) : n = m := by
  cases hb : readByte b c with
  | error => simp [hb, Except.map] at h
  | ok e =>
    simp only [hb, Except.map, Except.ok.injEq, Prod.mk.injEq] at h
    exact h.1.symm

theorem wellNamed_of_readStartTag {limit depth : Nat} {c d : Cursor} {tag : StartTag}
    (h : readStartTag limit depth c = .ok (tag, d)) : tag.WellNamed := by
  unfold readStartTag at h
  split at h
  · cases h
  · split at h
    · cases h
    · split at h
      · cases h
      · rename_i hn
        split at h
        · cases h
        · rename_i ha
          have name := isValidName_of_readName hn
          have none : ∀ key ∈ (OrderedMap.empty : Attributes).keys, isValidName key := nofun
          have keys := keys_of_readAttributes none ha
          split at h
          · exact eq_of_map_readByte h ▸ ⟨name, keys⟩
          · exact eq_of_map_readByte h ▸ ⟨name, keys⟩

/-- Only a start tag is read as one. -/
theorem readStartTag_of_readMarkup {limit depth : Nat} {name : String} {c d : Cursor}
    {tag : StartTag} (h : readMarkup limit depth name c = .ok (.startTag tag, d)) :
    readStartTag limit depth c = .ok (tag, d) := by
  have other : ∀ {mark : List UInt8} {e : Cursor},
      skipSection mark e ≠ .ok (.startTag tag, d) := by
    intro mark e he
    unfold skipSection at he
    split at he <;> cases he
  unfold readMarkup at h
  split at h
  · cases h
  · split at h
    · unfold readEndTag at h
      split at h
      · cases h
      · split at h
        · cases eq_of_map_readByte h
        · cases h
    · split at h
      · exact absurd h other
      · split at h
        · split at h <;> cases h
        · split at h
          · exact absurd h other
          · split at h
            · split at h
              · cases h
              · rename_i ht
                cases h
                exact ht
            · unfold readCharacters at h
              simp only at h
              split at h
              · cases h
              · simp only [Except.ok.injEq, Prod.mk.injEq] at h
                have := h.1
                split at this <;> cases this

theorem wellNamed_of_readMarkup {limit depth : Nat} {name : String} {c d : Cursor} {tag : StartTag}
    (h : readMarkup limit depth name c = .ok (.startTag tag, d)) : tag.WellNamed :=
  wellNamed_of_readStartTag (readStartTag_of_readMarkup h)

/-- What is known of an element before its end tag. -/
def OpenElement.WellNamed (e : OpenElement) : Prop :=
  isValidName e.name ∧ (∀ key ∈ e.attributes.keys, isValidName key) ∧ ContentsWellNamed e.content

namespace OpenElement.WellNamed
variable {e : OpenElement}

theorem ofTag {tag : StartTag} (h : tag.WellNamed) :
    OpenElement.WellNamed ⟨tag.name, tag.attributes, []⟩ := ⟨h.1, h.2, trivial⟩

theorem addText (h : e.WellNamed) (text : String) : (e.add (.text text)).WellNamed := h

theorem addElement (h : e.WellNamed) {child : Element} (hc : child.WellNamed) :
    (e.add (.element child)).WellNamed := ⟨h.1, h.2.1, hc, h.2.2⟩

theorem close (h : e.WellNamed) : e.close.WellNamed :=
  ⟨h.1, h.2.1, contentsWellNamed_reverse.2 h.2.2⟩

end OpenElement.WellNamed

/-- Each piece of markup keeps the open elements well named, so what is closed in the end is. -/
theorem wellNamed_of_readContent {limit : Nat} {top : OpenElement} {parents : List OpenElement}
    {c d : Cursor} {e : Element} (ht : top.WellNamed) (hp : ∀ p ∈ parents, p.WellNamed)
    (h : readContent limit top parents c = .ok (e, d)) : e.WellNamed := by
  fun_induction readContent limit top parents c with
  | case1 => cases h
  | case2 _ _ _ _ _ ih => exact ih ht hp h
  | case3 _ _ _ text _ _ ih => exact ih (ht.addText text) hp h
  | case4 _ _ _ tag _ hm _ ih =>
    have leaf := wellNamed_of_readMarkup hm
    exact ih (ht.addElement ⟨leaf.1, leaf.2, trivial⟩) hp h
  | case5 _ _ _ tag _ hm _ ih =>
    refine ih (.ofTag (wellNamed_of_readMarkup hm)) ?_ h
    intro p member
    rcases List.mem_cons.1 member with rfl | member
    · exact ht
    · exact hp p member
  | case6 =>
    simp only [Except.ok.injEq, Prod.mk.injEq] at h
    exact h.1 ▸ ht.close
  | case7 _ _ _ parent parents _ _ ih =>
    exact ih ((hp parent (by simp)).addElement ht.close)
      (fun p member => hp p (List.mem_cons_of_mem _ member)) h

theorem wellNamed_of_parse {limit : Nat} {bytes : List UInt8} {e : Element}
    (h : parse limit bytes = .ok e) : e.WellNamed := by
  unfold parse at h
  split at h
  · cases h
  · split at h
    · cases h
    · split at h
      · cases h
      · rename_i root _ hr
        have named : root.WellNamed := by
          unfold readElement at hr
          split at hr
          · cases hr
          · rename_i ht
            have tag := wellNamed_of_readStartTag ht
            split at hr
            · cases hr
              exact ⟨tag.1, tag.2, trivial⟩
            · exact wellNamed_of_readContent (.ofTag tag) (by simp) hr
        split at h
        · cases h
        · split at h <;> cases h
          exact named

end RouteNotation.Xml
