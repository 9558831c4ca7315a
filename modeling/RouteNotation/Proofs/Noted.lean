import RouteNotation.Diagnostic

/-!
Runs over a list: those in which nothing is noted, what holds of the value at the end, and when two
runs that note different things have one value.
-/

namespace RouteNotation.Noted
variable {σ α : Type}

theorem eq_of_pure {a b : α} (h : (pure a : Noted α) = pure b) : a = b := congrArg value h

/-- Nothing is noted on the way exactly if each part notes nothing. -/
theorem bind_eq_pure {β : Type} {x : Noted α} {f : α → Noted β} {b : β} :
    x >>= f = pure b ↔ x = pure x.value ∧ f x.value = pure b := by
  obtain ⟨a, notes⟩ := x
  constructor
  · intro h
    have value := congrArg Noted.value h
    have none := List.append_eq_nil_iff.1 (congrArg Noted.notes h)
    obtain ⟨rfl, last⟩ : notes = [] ∧ (f a).notes = [] := none
    exact ⟨rfl, congr (congrArg Noted.mk value) last⟩
  · rintro ⟨first, last⟩
    rw [first, pure_bind]
    exact last

/-- Where the result is made from one part, that part notes nothing. -/
theorem bind_pure_eq_pure {β : Type} {x : Noted α} {f : α → β} {b : β} :
    (x >>= fun a => pure (f a)) = pure b ↔ x = pure x.value ∧ f x.value = b :=
  bind_eq_pure.trans (and_congr_right fun _ => ⟨eq_of_pure, congrArg pure⟩)

theorem skippedWithout_ne_pure {path field : String} {a : Option α} :
    Noted.skippedWithout path field ≠ pure a := by
  intro h
  cases congrArg Noted.notes h

theorem unknownShape_bind_ne_pure {β : Type} {path message : String} {f : Unit → Noted β} {b : β} :
    Noted.unknownShape path message >>= f ≠ pure b := by
  intro h
  cases congrArg Noted.notes (bind_eq_pure.1 h).1

/-- Steps that note nothing make a run that notes nothing. -/
theorem foldlM_eq_pure {f : σ → α → Noted σ} {g : σ → α → σ} {as : List α} {s : σ}
    (h : ∀ s, ∀ a ∈ as, f s a = pure (g s a)) : as.foldlM f s = pure (as.foldl g s) := by
  induction as generalizing s with
  | nil => rfl
  | cons a as ih =>
    rw [List.foldlM_cons, h s a List.mem_cons_self, pure_bind, List.foldl_cons,
      ih fun s b hb => h s b (List.mem_cons_of_mem a hb)]

/-- What the start has and every step keeps, the end has. -/
theorem foldlM_induction {P : σ → Prop} {f : σ → α → Noted σ} {as : List α} {s : σ} (start : P s)
    (step : ∀ s, ∀ a ∈ as, P s → P (f s a).value) : P (as.foldlM f s).value := by
  induction as generalizing s with
  | nil => exact start
  | cons a as ih =>
    rw [List.foldlM_cons, value_bind]
    exact ih (step s a List.mem_cons_self start) fun s b hb => step s b (List.mem_cons_of_mem a hb)

/-- In a run that notes nothing, each part notes nothing, and so does the run that follows it. -/
theorem foldlM_split {f : σ → α → Noted σ} {before after : List α} {a : α} {s t : σ}
    (h : (before ++ a :: after).foldlM f s = pure t) :
    ∃ s₁ s₂, f s₁ a = pure s₂ ∧ after.foldlM f s₂ = pure t := by
  rw [List.foldlM_append, bind_eq_pure, List.foldlM_cons, bind_eq_pure] at h
  exact ⟨_, _, h.2.1, h.2.2⟩

/-- What the start has and every step keeps that notes nothing, the end of a run that notes nothing
has. -/
theorem foldlM_pure_induction {P : σ → Prop} {f : σ → α → Noted σ} {as : List α} {s t : σ}
    (run : as.foldlM f s = pure t) (start : P s)
    (step : ∀ s s', ∀ a ∈ as, f s a = pure s' → P s → P s') : P t := by
  induction as generalizing s with
  | nil =>
    cases congrArg value run
    exact start
  | cons a as ih =>
    rw [List.foldlM_cons, bind_eq_pure] at run
    exact ih run.2 (step s _ a List.mem_cons_self run.1 start)
      fun s s' b hb => step s s' b (List.mem_cons_of_mem a hb)

/-- In a run that notes nothing, what a part leaves stays if no other part takes it away. -/
theorem foldlM_kept (holds : σ → α → Prop) {f : σ → α → Noted σ} {as : List α} {s t : σ}
    (run : as.foldlM f s = pure t) (takes : ∀ s s', ∀ a ∈ as, f s a = pure s' → holds s' a)
    (keeps : ∀ s a b, holds s a → holds (f s b).value a) : ∀ a ∈ as, holds t a := by
  induction as generalizing s with
  | nil => nofun
  | cons a as ih =>
    rw [List.foldlM_cons, bind_eq_pure] at run
    have first := takes s _ a List.mem_cons_self run.1
    have last : t = (as.foldlM f (f s a).value).value := (congrArg value run.2).symm
    refine List.forall_mem_cons.2 ⟨?_, ih run.2 fun s s' b hb =>
      takes s s' b (List.mem_cons_of_mem a hb)⟩
    rw [last]
    exact foldlM_induction (P := fun s => holds s a) first fun s b _ => keeps s a b

/-- Where some of the parts set a field, the last of them does. -/
theorem foldlM_last {β : Type} (field : σ → Option β) (write : α → Option β) {f : σ → α → Noted σ}
    (h : ∀ s a, field (f s a).value = (write a).or (field s)) (s : σ) (as : List α) :
    field (as.foldlM f s).value = (as.filterMap write).getLast?.or (field s) := by
  induction as generalizing s with
  | nil => rfl
  | cons a as ih =>
    rw [List.foldlM_cons, value_bind, ih, h, ← Option.or_assoc]
    congr 1
    cases found : write a with
    | none => rw [List.filterMap_cons_none found, Option.or_none]
    | some b => rw [List.filterMap_cons_some found, List.getLast?_cons, Option.or_some]

theorem value_mapM {β : Type} (f : α → Noted β) (as : List α) :
    (as.mapM f).value = as.map fun a => (f a).value := by
  induction as with
  | nil => rfl
  | cons a as ih => rw [List.mapM_cons, value_bind, value_bind, ih, List.map_cons, value_pure]

/-- Where nothing is noted on the way, each part makes a member of the list and notes nothing. -/
theorem mem_of_mapM_eq_pure {β : Type} {f : α → Noted β} {as : List α} {bs : List β}
    (run : as.mapM f = pure bs) : ∀ a ∈ as, ∃ b ∈ bs, f a = pure b := by
  induction as generalizing bs with
  | nil => nofun
  | cons a as ih =>
    rw [List.mapM_cons, bind_eq_pure, bind_eq_pure] at run
    obtain ⟨first, rest, last⟩ := run
    cases congrArg value last
    refine List.forall_mem_cons.2 ⟨⟨_, List.mem_cons_self, first⟩, fun c hc => ?_⟩
    obtain ⟨b, hb, same⟩ := ih rest c hc
    exact ⟨b, List.mem_cons_of_mem _ hb, same⟩

theorem mapM_map_eq_pure {m : Type → Type} [Monad m] [LawfulMonad m] {β γ : Type} {make : α → β}
    {read : β → m γ} {result : α → γ} {as : List α}
    (h : ∀ a ∈ as, read (make a) = pure (result a)) :
    (as.map make).mapM read = pure (as.map result) := by
  induction as with
  | nil => rfl
  | cons a as ih =>
    rw [List.forall_mem_cons] at h
    rw [List.map_cons, List.mapM_cons, h.1, ih h.2, pure_bind, pure_bind, List.map_cons]

/-- Values that are each read as what they were made from. -/
theorem mapM_map_eq_self {m : Type → Type} [Monad m] [LawfulMonad m] {β : Type} {make : α → β}
    {read : β → m α} {as : List α} (h : ∀ a ∈ as, read (make a) = pure a) :
    (as.map make).mapM read = pure as := by
  have all : _ = pure (as.map id) := mapM_map_eq_pure h
  rwa [List.map_id] at all

theorem value_bind_congr {β : Type} {x y : Noted α} {f g : α → Noted β} (first : x.value = y.value)
    (rest : ∀ a, (f a).value = (g a).value) : (x >>= f).value = (y >>= g).value := by
  rw [value_bind, value_bind, first, rest]

theorem value_foldlM_congr {f g : σ → α → Noted σ} (h : ∀ s a, (f s a).value = (g s a).value)
    (s : σ) (as : List α) : (as.foldlM f s).value = (as.foldlM g s).value := by
  induction as generalizing s with
  | nil => rfl
  | cons a as ih =>
    rw [List.foldlM_cons, List.foldlM_cons]
    exact value_bind_congr (h s a) ih

theorem value_mapM_congr {β : Type} {f g : α → Noted β} (h : ∀ a, (f a).value = (g a).value)
    (as : List α) : (as.mapM f).value = (as.mapM g).value := by
  rw [value_mapM, value_mapM]
  exact List.map_congr_left fun a _ => h a

end RouteNotation.Noted
