import ShapeAlgebra.Proofs.Declaration.Meaning

/-!
# Unfolding references

An outline is unfolded where a reference in it gives way to the outline of what is declared under
the name. In whatever order references are unfolded, what the outline means stays; and from an
outline that means something unfolding comes to an end.

Results:

* `Outline.Unfolds.means`: what an outline means stays when a reference is unfolded.
* `Outline.Means.acc_unfolds`: no outline that means something is unfolded forever.
-/

namespace ShapeAlgebra

/-! ## Steps inside lists -/

section

variable {α : Type} {r : α → α → Prop}

/-- One of the items of a list makes a step. -/
inductive StepIn (r : α → α → Prop) : List α → List α → Prop
  | head {a b : α} {as : List α} (h : r a b) : StepIn r (a :: as) (b :: as)
  | tail (a : α) {as bs : List α} (h : StepIn r as bs) : StepIn r (a :: as) (a :: bs)

theorem StepIn.middle {a b : α} (before after : List α) (h : r a b) :
    StepIn r (before ++ a :: after) (before ++ b :: after) := by
  induction before with
  | nil => exact .head h
  | cons c before ih => exact .tail c ih

theorem acc_stepIn_cons {a : α} (ha : Acc (fun b a => r a b) a) {as : List α}
    (has : Acc (fun bs as => StepIn r as bs) as) : Acc (fun bs as => StepIn r as bs) (a :: as) := by
  induction ha generalizing as with
  | intro a _ iha =>
    induction has with
    | intro as has ihas =>
      refine Acc.intro _ fun bs hbs => ?_
      cases hbs with
      | head h => exact iha _ h (Acc.intro as has)
      | tail _ h => exact ihas _ h

/-- Where the steps of every item come to an end, so do those of the list. -/
theorem acc_stepIn {as : List α} (h : ∀ a ∈ as, Acc (fun b a => r a b) a) :
    Acc (fun bs as => StepIn r as bs) as := by
  induction as with
  | nil =>
    refine Acc.intro _ fun bs hbs => ?_
    cases hbs
  | cons a as ih =>
    obtain ⟨ha, has⟩ := List.forall_mem_cons.1 h
    exact acc_stepIn_cons ha (ih has)

end

/-! ## Unfolding -/

/-- A reference of the first outline gives way to what is declared under its name. -/
inductive Outline.Unfolds (ds : Declarations) : Outline → Outline → Prop
  | reference {n : Text} {o : Outline} (ho : ds.outline? n = some o) :
      Outline.Unfolds ds (.reference n) o
  | sequence {e e' : Outline} (r : Except DeclarationFault Bool) (h : Outline.Unfolds ds e e') :
      Outline.Unfolds ds (.sequence e r) (.sequence e' r)
  | union (before after : List Outline) {m m' : Outline} (h : Outline.Unfolds ds m m') :
      Outline.Unfolds ds (.union (before ++ m :: after)) (.union (before ++ m' :: after))
  | record (before after : List FieldOutline) (name : Text) (flags : Flags) {o o' : Outline}
      (h : Outline.Unfolds ds o o') : Outline.Unfolds ds
        (.record (before ++ ⟨name, flags, o⟩ :: after))
        (.record (before ++ ⟨name, flags, o'⟩ :: after))

section

variable {ds : Declarations} {o o' : Outline} {s : Schema}

theorem Outline.AllMean.replace {before after : List Outline}
    (h : ∀ s, Outline.Means ds o s → Outline.Means ds o' s) {ss : List Schema}
    (hs : Outline.AllMean ds (before ++ o :: after) ss) :
    Outline.AllMean ds (before ++ o' :: after) ss := by
  induction before generalizing ss with
  | nil =>
    cases hs with
    | cons ho hs => exact .cons (h _ ho) hs
  | cons p before ih =>
    cases hs with
    | cons hp hs => exact .cons hp (ih hs)

theorem FieldOutline.AllMean.replace {before after : List FieldOutline} {name : Text}
    {flags : Flags} (h : ∀ s, Outline.Means ds o s → Outline.Means ds o' s) {fs : List Field}
    (hs : FieldOutline.AllMean ds (before ++ ⟨name, flags, o⟩ :: after) fs) :
    FieldOutline.AllMean ds (before ++ ⟨name, flags, o'⟩ :: after) fs := by
  induction before generalizing fs with
  | nil =>
    cases hs with
    | cons _ _ ho hs => exact .cons _ _ (h _ ho) hs
  | cons p before ih =>
    cases hs with
    | cons _ _ hp hs => exact .cons _ _ hp (ih hs)

/-- What an outline means stays when a reference is unfolded. -/
theorem Outline.Unfolds.means (h : Outline.Unfolds ds o o') (hs : Outline.Means ds o s) :
    Outline.Means ds o' s := by
  induction h generalizing s with
  | reference ho =>
    cases hs with
    | reference ho' hs =>
      rw [ho] at ho'
      cases ho'
      exact hs
  | sequence r _ ih =>
    cases hs with
    | sequence readonly hs => exact .sequence readonly (ih hs)
  | union before after _ ih =>
    cases hs with
    | union hs => exact .union (hs.replace fun _ => ih)
  | record before after name flags _ ih =>
    cases hs with
    | record hs hn => exact .record (hs.replace fun _ => ih) hn

/-! ## Unfolding ends -/

theorem Outline.acc_unfolds_sequence (h : Acc (fun o' o => Outline.Unfolds ds o o') o)
    (r : Except DeclarationFault Bool) :
    Acc (fun o' o => Outline.Unfolds ds o o') (.sequence o r) := by
  induction h with
  | intro o _ ih =>
    refine Acc.intro _ fun p hp => ?_
    cases hp with
    | sequence _ h => exact ih _ h

theorem Outline.acc_unfolds_union {ms : List Outline}
    (h : Acc (fun ns ms => StepIn (Outline.Unfolds ds) ms ns) ms) :
    Acc (fun o' o => Outline.Unfolds ds o o') (.union ms) := by
  induction h with
  | intro ms _ ih =>
    refine Acc.intro _ fun p hp => ?_
    cases hp with
    | union before after h => exact ih _ (.middle before after h)

theorem Outline.acc_unfolds_record {fs : List FieldOutline}
    (h : Acc (fun gs fs => StepIn (fun f g : FieldOutline => Outline.Unfolds ds f.shape g.shape)
      fs gs) fs) : Acc (fun o' o => Outline.Unfolds ds o o') (.record fs) := by
  induction h with
  | intro fs _ ih =>
    refine Acc.intro _ fun p hp => ?_
    cases hp with
    | record before after name flags h => exact ih _ (.middle before after h)

/-- No outline that means something is unfolded forever. -/
theorem Outline.Means.acc_unfolds (h : Outline.Means ds o s) :
    Acc (fun o' o => Outline.Unfolds ds o o') o := by
  refine @Outline.Means.rec ds (fun o _ _ => Acc (fun o' o => Outline.Unfolds ds o o') o)
    (fun os _ _ => ∀ o ∈ os, Acc (fun o' o => Outline.Unfolds ds o o') o)
    (fun fs _ _ => ∀ f ∈ fs, Acc (fun o' o => Outline.Unfolds ds o o') f.shape)
    ?leaf ?reference ?sequence ?union ?record ?nil ?cons ?fieldNil ?fieldCons o s h
  case leaf =>
    intro s
    refine Acc.intro _ fun o ho => ?_
    cases ho
  case reference =>
    intro n o s ho _ ih
    refine Acc.intro _ fun p hp => ?_
    cases hp with
    | reference ho' =>
      rw [ho] at ho'
      cases ho'
      exact ih
  case sequence => intro e s readonly _ ih; exact Outline.acc_unfolds_sequence ih _
  case union => intro ms ss _ ih; exact Outline.acc_unfolds_union (acc_stepIn ih)
  case record =>
    intro fs r _ _ ih
    exact Outline.acc_unfolds_record (acc_stepIn fun f hf => InvImage.accessible _ (ih f hf))
  case nil => rintro o ⟨⟩
  case cons => intro o s os ss _ _ ih ihs; exact List.forall_mem_cons.2 ⟨ih, ihs⟩
  case fieldNil => rintro f ⟨⟩
  case fieldCons =>
    intro o s os fs name flags _ _ ih ihs
    exact List.forall_mem_cons.2 ⟨ih, ihs⟩

end

end ShapeAlgebra
