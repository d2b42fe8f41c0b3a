import Mathlib.Logic.Relation
import ShapeAlgebra.Declaration.Catalog
import ShapeAlgebra.Proofs.Declaration.Outline

/-!
# What declared names mean

The meaning of outlines as a relation: a reference means what the declaration of its name means.
There is no order in which names are looked at and no record of what was resolved before; what has
a meaning has a finite derivation of it, so that references never lead around in a circle.

Results:

* `Outline.Means.isLegal`: what has a meaning has no fault.
* `Outline.Means.unique`: nothing has two meanings.
* `Outline.Means.acc`, `Declarations.not_cycle_of_acc`: from what has a meaning no cycle is
  reached.
* `Outline.Means.extend`: meanings stay when more is declared.
-/

namespace ShapeAlgebra

/-! ## The graph of references -/

namespace Declarations

/-- The outline of what is declared under a name. -/
def outline? (ds : Declarations) (n : Text) : Option Outline :=
  (ds.lookup n).map (Outline.ofData ds.declares [] n)

/-- No declaration has a fault. -/
def IsLegal (ds : Declarations) : Prop :=
  ∀ n o, ds.outline? n = some o → o.IsLegal fun m => ds.declares m = true

/-- The declaration of the first name refers to the second. -/
def Refers (ds : Declarations) (m n : Text) : Prop :=
  ∃ o, ds.outline? m = some o ∧ n ∈ o.references

theorem isSome_outline? (ds : Declarations) (n : Text) :
    (ds.outline? n).isSome = ds.declares n := by
  rw [outline?, Option.isSome_map, declares]

theorem Refers.declares {ds : Declarations} {m n : Text} (h : ds.Refers m n) :
    ds.declares m = true := by
  obtain ⟨o, ho, -⟩ := h
  rw [← isSome_outline?, ho]
  rfl

/-- A name from which every path of references ends reaches no cycle. -/
theorem not_cycle_of_acc {ds : Declarations} {n : Text} (h : Acc (fun m n => ds.Refers n m) n) :
    ∀ c, Relation.ReflTransGen ds.Refers n c → ¬ Relation.TransGen ds.Refers c c := by
  induction h with
  | intro n _ ih =>
    intro c hnc hcc
    rcases Relation.ReflTransGen.cases_head hnc with rfl | ⟨m, hnm, hmc⟩
    · -- The cycle goes through `n` itself: its next name reaches `n` again.
      obtain ⟨m, hnm, hmn⟩ := Relation.TransGen.head'_iff.1 hcc
      exact ih m hnm n hmn hcc
    · exact ih m hnm c hmc hcc

end Declarations

/-! ## Meanings -/

mutual

/-- An outline means a schema. -/
inductive Outline.Means (ds : Declarations) : Outline → Schema → Prop
  | leaf (s : Schema) : Outline.Means ds (.leaf s) s
  | reference {n : Text} {o : Outline} {s : Schema} (ho : ds.outline? n = some o)
      (h : Outline.Means ds o s) : Outline.Means ds (.reference n) s
  | sequence {e : Outline} {s : Schema} (readonly : Bool) (h : Outline.Means ds e s) :
      Outline.Means ds (.sequence e (.ok readonly)) (.sequence s readonly)
  | union {ms : List Outline} {ss : List Schema} (h : Outline.AllMean ds ms ss) :
      Outline.Means ds (.union ms) (.unionOf ss)
  | record {fs : List FieldOutline} {r : List Field} (h : FieldOutline.AllMean ds fs r)
      (hr : (r.map Field.name).Nodup) : Outline.Means ds (.record fs) (.record r)

/-- Outlines mean schemas, one by one. -/
inductive Outline.AllMean (ds : Declarations) : List Outline → List Schema → Prop
  | nil : Outline.AllMean ds [] []
  | cons {o : Outline} {s : Schema} {os : List Outline} {ss : List Schema}
      (h : Outline.Means ds o s) (hs : Outline.AllMean ds os ss) :
      Outline.AllMean ds (o :: os) (s :: ss)

/-- The outlines of fields mean fields, one by one. -/
inductive FieldOutline.AllMean (ds : Declarations) : List FieldOutline → List Field → Prop
  | nil : FieldOutline.AllMean ds [] []
  | cons {o : Outline} {s : Schema} {os : List FieldOutline} {fs : List Field} (name : Text)
      (flags : Flags) (h : Outline.Means ds o s) (hs : FieldOutline.AllMean ds os fs) :
      FieldOutline.AllMean ds (⟨name, flags, o⟩ :: os) (⟨name, s, flags⟩ :: fs)

end

section

variable {ds : Declarations}

theorem FieldOutline.AllMean.names {os : List FieldOutline} {fs : List Field}
    (h : FieldOutline.AllMean ds os fs) : os.map FieldOutline.name = fs.map Field.name := by
  induction os generalizing fs with
  | nil => cases h; rfl
  | cons o os ih =>
    cases h with
    | cons name flags h hs => rw [List.map_cons, List.map_cons, ih hs]

theorem Outline.Means.isLegal {o : Outline} {s : Schema} (h : Outline.Means ds o s) :
    o.IsLegal fun n => ds.declares n = true := by
  refine @Outline.Means.rec ds (fun o _ _ => o.IsLegal fun n => ds.declares n = true)
    (fun os _ _ => Outline.AllLegal (fun n => ds.declares n = true) os)
    (fun os _ _ => FieldOutline.AllLegal (fun n => ds.declares n = true) os)
    ?leaf ?reference ?sequence ?union ?record ?nil ?cons ?fieldNil ?fieldCons o s h
  case leaf => intro s; trivial
  case reference =>
    intro n o s ho _ _
    show ds.declares n = true
    rw [← Declarations.isSome_outline?, ho]
    rfl
  case sequence => intro e s readonly _ ih; exact ⟨ih, readonly, rfl⟩
  case union => intro ms ss _ ih; exact ih
  case record => intro fs r h hr ih; exact ⟨ih, h.names ▸ hr⟩
  case nil => trivial
  case cons => intro o s os ss _ _ ih ihs; exact ⟨ih, ihs⟩
  case fieldNil => trivial
  case fieldCons => intro o s os fs name flags _ _ ih ihs; exact ⟨ih, ihs⟩

theorem Outline.Means.unique {o : Outline} {s t : Schema} (hs : Outline.Means ds o s)
    (ht : Outline.Means ds o t) : s = t := by
  refine @Outline.Means.rec ds (fun o s _ => ∀ t, Outline.Means ds o t → s = t)
    (fun os ss _ => ∀ ts, Outline.AllMean ds os ts → ss = ts)
    (fun os fs _ => ∀ gs, FieldOutline.AllMean ds os gs → fs = gs)
    ?leaf ?reference ?sequence ?union ?record ?nil ?cons ?fieldNil ?fieldCons o s hs t ht
  case leaf => rintro s t ⟨⟩; rfl
  case reference =>
    intro n o s ho _ ih t ht
    cases ht with
    | reference ho' ht =>
      rw [ho] at ho'
      cases ho'
      exact ih t ht
  case sequence =>
    intro e s readonly _ ih t ht
    cases ht with
    | sequence _ ht => rw [ih _ ht]
  case union =>
    intro ms ss _ ih t ht
    cases ht with
    | union ht => rw [ih _ ht]
  case record =>
    intro fs r _ _ ih t ht
    cases ht with
    | record ht _ => rw [ih _ ht]
  case nil => rintro ts ⟨⟩; rfl
  case cons =>
    intro o s os ss _ _ ih ihs ts ht
    cases ht with
    | cons ht hts => rw [ih _ ht, ihs _ hts]
  case fieldNil => rintro gs ⟨⟩; rfl
  case fieldCons =>
    intro o s os fs name flags _ _ ih ihs gs hg
    cases hg with
    | cons _ _ ht hts => rw [ih _ ht, ihs _ hts]

/-- From what has a meaning, every path of references ends. -/
theorem Outline.Means.acc {o : Outline} {s : Schema} (h : Outline.Means ds o s) :
    ∀ n ∈ o.references, Acc (fun m n => ds.Refers n m) n := by
  refine @Outline.Means.rec ds (fun o _ _ => ∀ n ∈ o.references, Acc (fun m n => ds.Refers n m) n)
    (fun os _ _ => ∀ n ∈ Outline.allReferences os, Acc (fun m n => ds.Refers n m) n)
    (fun os _ _ => ∀ n ∈ FieldOutline.allReferences os, Acc (fun m n => ds.Refers n m) n)
    ?leaf ?reference ?sequence ?union ?record ?nil ?cons ?fieldNil ?fieldCons o s h
  case leaf => rintro s n ⟨⟩
  case reference =>
    intro n o s ho _ ih m hm
    obtain rfl := List.mem_singleton.1 hm
    refine Acc.intro m fun k hk => ?_
    obtain ⟨o', ho', hk⟩ := hk
    rw [ho] at ho'
    cases ho'
    exact ih k hk
  case sequence => intro e s readonly _ ih; exact ih
  case union => intro ms ss _ ih; exact ih
  case record => intro fs r _ _ ih; exact ih
  case nil => rintro n ⟨⟩
  case cons =>
    intro o s os ss _ _ ih ihs n hn
    exact (List.mem_append.1 hn).elim (ih n) (ihs n)
  case fieldNil => rintro n ⟨⟩
  case fieldCons =>
    intro o s os fs name flags _ _ ih ihs n hn
    exact (List.mem_append.1 hn).elim (ih n) (ihs n)

/-- Meanings stay where the outlines of the names stay that have one. -/
theorem Outline.Means.extend {ds' : Declarations} {o : Outline} {s : Schema}
    (h : Outline.Means ds o s)
    (hext : ∀ n o, ds.outline? n = some o → (o.IsLegal fun n => ds.declares n = true) →
      ds'.outline? n = some o) : Outline.Means ds' o s := by
  refine @Outline.Means.rec ds (fun o s _ => Outline.Means ds' o s)
    (fun os ss _ => Outline.AllMean ds' os ss) (fun os fs _ => FieldOutline.AllMean ds' os fs)
    ?leaf ?reference ?sequence ?union ?record ?nil ?cons ?fieldNil ?fieldCons o s h
  case leaf => exact .leaf
  case reference => intro n o s ho h ih; exact .reference (hext n o ho h.isLegal) ih
  case sequence => intro e s readonly _ ih; exact .sequence readonly ih
  case union => intro ms ss _ ih; exact .union ih
  case record => intro fs r _ hr ih; exact .record ih hr
  case nil => exact .nil
  case cons => intro o s os ss _ _ ih ihs; exact .cons ih ihs
  case fieldNil => exact .nil
  case fieldCons => intro o s os fs name flags _ _ ih ihs; exact .cons name flags ih ihs

end

end ShapeAlgebra
