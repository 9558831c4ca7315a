import RouteNotation.Proofs.Dsl.UnreadValues
import RouteNotation.Proofs.Noted
import RouteNotation.Proofs.Route.HeldValues

/-!
What becomes of the texts in a mapping of fields when nothing is noted: they are held, or they are
passed over. Main statement: `Accounts.readFields`.
-/

namespace RouteNotation.Dsl

open Yaml

/-- A reader of fields that accounts for the texts under every key it reads: they are held under the
key or are passed over, and reading other keys takes nothing away. -/
structure Accounts {σ : Type} (fits : String → Value → Prop)
    (read : σ → String → Value → Noted σ) (holds : String → String → σ → Prop)
    (unread : String → Value → List String) : Prop where
  takes : ∀ {s t key v}, read s key v = pure t → fits key v →
    ∀ x ∈ v.texts, holds key x t ∨ x ∈ unread key v
  keeps : ∀ s key v {j x}, j ≠ key → holds j x s → holds j x (read s key v).value

theorem not_readUnder {key : String} {es : List Entry} (h : ¬ readUnder key es) :
    ∀ e ∈ es, e.1.scalarText? ≠ some key := by
  simpa [readUnder] using h

/-- The same for a run over entries: of those with one key the last one counts. -/
theorem foldlM_accounts {σ : Type} {f : σ → Entry → Noted σ} (holds : String → String → σ → Prop)
    (unread : String → Value → List String) {es : List Entry} {s t : σ}
    (run : es.foldlM f s = pure t)
    (takes : ∀ {s s' e key}, e ∈ es → e.1.scalarText? = some key → f s e = pure s' →
      ∀ x ∈ e.2.texts, holds key x s' ∨ x ∈ unread key e.2)
    (keeps : ∀ s e {key x}, e.1.scalarText? ≠ some key → holds key x s →
      holds key x (f s e).value) :
    ∀ x ∈ entriesTexts es, (∃ key, holds key x t) ∨ x ∈ fieldsUnread unread es := by
  induction es generalizing s with
  | nil => nofun
  | cons e rest ih =>
    obtain ⟨first, later⟩ := Noted.bind_eq_pure.1 (List.foldlM_cons.symm.trans run)
    intro x hx
    rw [fieldsUnread, List.mem_append]
    rcases List.mem_append.1 hx with here | after
    · cases scalar : e.1.scalarText? with
      | none => exact .inr (.inl here)
      | some key =>
        by_cases again : readUnder key rest
        · exact .inr (.inl (by simpa only [again, if_true] using here))
        · simp only [again, Bool.false_eq_true, if_false]
          refine (takes List.mem_cons_self scalar first x here).imp (fun held => ⟨key, ?_⟩) .inl
          have last : t = (rest.foldlM f (f s e).value).value := (congrArg Noted.value later).symm
          rw [last]
          exact Noted.foldlM_induction (P := holds key x) held fun s g hg =>
            keeps s g (not_readUnder again g hg)
    · exact (ih later (fun he => takes (List.mem_cons_of_mem e he)) x after).imp_right .inr

/-- What is passed over under its key is passed over, whether or not the key comes again. -/
theorem mem_fieldsUnread {unread : String → Value → List String} {es : List Entry} {e : Entry}
    {x : String} (he : e ∈ es) (hx : x ∈ e.2.texts)
    (passed : ∀ key, e.1.scalarText? = some key → x ∈ unread key e.2) :
    x ∈ fieldsUnread unread es := by
  induction es with
  | nil => cases he
  | cons f rest ih =>
    rw [fieldsUnread, List.mem_append]
    rcases List.mem_cons.1 he with rfl | later
    · left
      cases scalar : e.1.scalarText? with
      | none => exact hx
      | some key =>
        dsimp only
        split
        · exact hx
        · exact passed key scalar
    · exact .inr (ih later)

theorem Accounts.readFields {σ : Type} {fits : String → Value → Prop}
    {read : σ → String → Value → Noted σ} {holds : String → String → σ → Prop}
    {unread : String → Value → List String} (h : Accounts fits read holds unread)
    {es : List Entry} {s t : σ} (run : readFields read s es = pure t)
    (all : ∀ e ∈ es, ∀ key, e.1.scalarText? = some key → fits key e.2) :
    ∀ x ∈ entriesTexts es, (∃ key, holds key x t) ∨ x ∈ fieldsUnread unread es := by
  refine foldlM_accounts holds unread run ?_ ?_
  · intro s s' e key he scalar read
    rw [scalar] at read
    exact h.takes read (all e he key scalar)
  · intro s e key x other held
    cases scalar : e.1.scalarText? with
    | none => exact held
    | some j =>
      have different : key ≠ j := fun same => other (scalar.trans (congrArg some same.symm))
      exact h.keeps s j e.2 different held

section Attributes
variable {path key : String} {m m' : Attributes} {v : Value} {x : String}

theorem holds_readAttribute (read : readAttribute path m key v = pure m') (hx : x ∈ v.texts) :
    m'.get? key = some x := by
  unfold readAttribute at read
  split at read
  · exact absurd read Noted.unknownShape_bind_ne_pure
  · split at read
    · rename_i text scalar
      rw [texts_of_scalarText? scalar, List.mem_singleton] at hx
      obtain rfl := Noted.eq_of_pure read
      rw [hx]
      exact (OrderedMap.get?_insert ..).trans (if_pos rfl)
    · exact absurd read Noted.unknownShape_bind_ne_pure

theorem keeps_readAttribute (path : String) (m : Attributes) (v : Value) {j : String}
    (other : j ≠ key) : (readAttribute path m key v).value.get? j = m.get? j := by
  unfold readAttribute
  split
  · rfl
  · split
    · exact (OrderedMap.get?_insert ..).trans (if_neg other)
    · rfl

theorem accounts_readAttribute (path : String) : Accounts (fun _ v => v.Clear)
    (readAttribute path) (fun key x m => m.get? key = some x) fun _ _ => [] where
  takes read _ _ hx := .inl (holds_readAttribute read hx)
  keeps m _ v _ _ other held := (keeps_readAttribute path m v other).trans held

theorem values_readAttributes {es : List Entry} (clear : (Value.mapping es).Clear)
    (run : readAttributes path es = pure m) :
    ∀ x ∈ entriesTexts es, x ∈ m.values ∨ x ∈ attributesUnread es := by
  have all := (accounts_readAttribute path).readFields (s := .empty) run
    fun e he _ _ => clear.entry e he
  exact fun x hx => (all x hx).imp_left fun ⟨_, held⟩ => OrderedMap.mem_values_of_get? held

end Attributes

section Expressions
variable {path key : String} {v : Value} {x : String}

theorem text_or_unread (hx : x ∈ v.texts) : v.scalarText? = some x ∨ x ∈ textUnread v := by
  unfold textUnread Value.isScalar
  cases scalar : v.scalarText? with
  | none => exact .inr hx
  | some text =>
    rw [texts_of_scalarText? scalar, List.mem_singleton] at hx
    exact .inl (congrArg some hx.symm)

/-- Whether an expression holds a text where a key of its mapping puts it. -/
def ExpressionHolds (key x : String) (e : Expression) : Prop :=
  if key = "expression" then e.text = some x else e.attributes.get? key = some x

theorem ExpressionHolds.mem_values {e : Expression} (h : ExpressionHolds key x e) :
    x ∈ e.values := by
  unfold ExpressionHolds at h
  refine List.mem_append.2 ?_
  split at h
  · exact .inr (Option.mem_toList.2 h)
  · exact .inl (OrderedMap.mem_values_of_get? h)

/-- One field of an expression: its text, or an attribute. -/
def readExpressionField (path : String) (e : Expression) (key : String) (v : Value) :
    Noted Expression :=
  if key = "expression" then return { e with text := v.scalarText? }
  else do return { e with attributes := ← readAttribute path e.attributes key v }

theorem readExpression_mapping (path : String) (l : Language) (es : List Entry) :
    readExpression path l (.mapping es) =
      readFields (readExpressionField path) ⟨l, none, .empty⟩ es := by
  rw [readExpression, readFields]
  congr 1
  funext e entry
  unfold readExpressionEntry readExpressionField
  split
  · rename_i same
    rw [same]
    rfl
  · rename_i key other same
    rw [same]
    exact (if_neg fun here => other here).symm
  · rename_i none
    rw [none]

theorem accounts_readExpressionField (path : String) : Accounts (fun _ v => v.Clear)
    (readExpressionField path) ExpressionHolds expressionFieldUnread where
  takes {e t key v} read _ x hx := by
    unfold readExpressionField at read
    unfold ExpressionHolds expressionFieldUnread
    split at read
    · rename_i here
      obtain rfl := Noted.eq_of_pure read
      rw [if_pos here, if_pos here]
      exact text_or_unread hx
    · rename_i other
      rw [if_neg other]
      obtain ⟨held, rfl⟩ := Noted.bind_pure_eq_pure.1 read
      exact .inl (holds_readAttribute held hx)
  keeps e key v j x other held := by
    unfold ExpressionHolds at held ⊢
    unfold readExpressionField
    split at held
    · rename_i text
      rw [if_pos text, if_neg (text ▸ other.symm)]
      exact held
    · rename_i noText
      rw [if_neg noText]
      split
      · exact held
      · exact (keeps_readAttribute path e.attributes v other).trans held

theorem values_readExpression {l : Language} {e : Expression} (clear : v.Clear)
    (run : readExpression path l v = pure e) :
    ∀ x ∈ v.texts, x ∈ e.values ∨ x ∈ expressionUnread v := by
  have text (read : readExpression path l v = pure ⟨l, v.scalarText?, .empty⟩) :
      ∀ x ∈ v.texts, x ∈ e.values ∨ x ∈ textUnread v := by
    intro x hx
    rw [run] at read
    obtain rfl := Noted.eq_of_pure read
    refine (text_or_unread hx).imp_left fun scalar => ?_
    exact List.mem_append_right _ (Option.mem_toList.2 scalar)
  cases v with
  | mapping es =>
    rw [readExpression_mapping] at run
    have all := (accounts_readExpressionField path).readFields run
      fun e he _ _ => clear.entry e he
    exact fun x hx => (all x hx).imp_left fun ⟨_, held⟩ => held.mem_values
  | _ => exact text rfl

end Expressions
end RouteNotation.Dsl
