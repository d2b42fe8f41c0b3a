import Mathlib.Data.List.Chain
import ShapeAlgebra.Proofs.Declaration.Meaning

/-!
# Resolution finds the meanings or a cycle

Resolution follows references with a record of what is known and a path of the names in progress.
What is known is what names mean, the path is a path of references without repetition, and where
nothing else is wrong resolution fails only by meeting a name of its path again: the part of the
path from there on is a cycle.

Results:

* `Outline.resolve_ensures`: an outline is resolved to its meaning if its references are.
* `Declarations.resolveName_ensures`: a name is resolved to its meaning, or closes a cycle that it
  reaches.
* `Declarations.exists_resolve_iff`: all declarations are resolved exactly when none has a fault and
  no name refers to itself, not even by way of others.
* `Declarations.resolve_error`: which cycle is told of.
-/

namespace ShapeAlgebra

/-! ## Readings with a record of what is known -/

/-- A reading keeps `inv` of what is known, gives what `post` says, and fails only with what `fail`
says. -/
def Resolve.Ensures {α : Type} (inv : Resolved → Prop) (m : Resolve α) (post : α → Prop)
    (fail : DeclarationFault → Prop) : Prop :=
  ∀ known, inv known → match m known with
    | .ok (a, known') => post a ∧ inv known'
    | .error cause => fail cause

section

variable {α β : Type} {inv : Resolved → Prop} {post : α → Prop} {post' : β → Prop}
  {fail fail' : DeclarationFault → Prop}

theorem Resolve.Ensures.pure {a : α} (h : post a) :
    Resolve.Ensures inv (Pure.pure a) post fail :=
  fun _ hk => ⟨h, hk⟩

theorem Resolve.Ensures.throw {cause : DeclarationFault} (h : fail cause) :
    Resolve.Ensures inv (MonadExcept.throw cause : Resolve α) post fail :=
  fun _ _ => h

theorem Resolve.Ensures.bind {m : Resolve α} {f : α → Resolve β}
    (hm : Resolve.Ensures inv m post fail)
    (hf : ∀ a, post a → Resolve.Ensures inv (f a) post' fail) :
    Resolve.Ensures inv (m >>= f) post' fail := by
  intro known hk
  have h := hm known hk
  simp only [Bind.bind, StateT.bind, Except.bind]
  cases hr : m known with
  | error cause => simpa [hr] using h
  | ok p =>
    rw [hr] at h
    exact hf p.1 h.1 p.2 h.2

theorem Resolve.Ensures.mono {m : Resolve α} (h : Resolve.Ensures inv m post fail)
    (hf : ∀ cause, fail cause → fail' cause) : Resolve.Ensures inv m post fail' := by
  intro known hk
  have h := h known hk
  cases hr : m known with
  | error cause => rw [hr] at h; exact hf cause h
  | ok p => rw [hr] at h; exact h

end

/-! ## Outlines -/

section

variable {ds : Declarations} {lookup : Text → Resolve Schema} {inv : Resolved → Prop}
  {fail : DeclarationFault → Prop}

/-- An outline is resolved to its meaning, and fails as `fail` says unless it has a fault. -/
def Outline.Resolves (ds : Declarations) (lookup : Text → Resolve Schema) (inv : Resolved → Prop)
    (fail : DeclarationFault → Prop) (o : Outline) : Prop :=
  Resolve.Ensures inv (o.resolve lookup) (Outline.Means ds o) fun cause =>
    (o.IsLegal fun n => ds.declares n = true) → fail cause

theorem Outline.resolveAll_ensures {os : List Outline}
    (h : ∀ o ∈ os, Outline.Resolves ds lookup inv fail o) :
    Resolve.Ensures inv (Outline.resolveAll lookup os) (Outline.AllMean ds os) fun cause =>
      Outline.AllLegal (fun n => ds.declares n = true) os → fail cause := by
  induction os with
  | nil =>
    rw [Outline.resolveAll]
    exact .pure .nil
  | cons o os ih =>
    rw [Outline.resolveAll]
    refine ((h o (List.mem_cons_self ..)).mono fun _ hf hl => hf hl.1).bind fun s hs => ?_
    refine ((ih fun p hp => h p (List.mem_cons_of_mem _ hp)).mono fun _ hf hl => hf hl.2).bind
      fun ss hss => ?_
    exact .pure (.cons hs hss)

theorem FieldOutline.resolveAll_ensures {os : List FieldOutline}
    (h : ∀ o ∈ os, Outline.Resolves ds lookup inv fail o.shape) :
    Resolve.Ensures inv (FieldOutline.resolveAll lookup os) (FieldOutline.AllMean ds os)
      fun cause => FieldOutline.AllLegal (fun n => ds.declares n = true) os → fail cause := by
  induction os with
  | nil =>
    rw [FieldOutline.resolveAll]
    exact .pure .nil
  | cons o os ih =>
    have ho := h o (List.mem_cons_self ..)
    obtain ⟨name, flags, o⟩ := o
    rw [FieldOutline.resolveAll]
    refine (ho.mono fun _ hf hl => hf hl.1).bind fun s hs => ?_
    refine ((ih fun p hp => h p (List.mem_cons_of_mem _ hp)).mono fun _ hf hl => hf hl.2).bind
      fun fs hfs => ?_
    exact .pure (.cons name flags hs hfs)

theorem Outline.resolve_ensures {o : Outline}
    (hl : ∀ n ∈ o.references, Outline.Resolves ds lookup inv fail (.reference n)) :
    Outline.Resolves ds lookup inv fail o := by
  induction o using Outline.induction with
  | leaf s =>
    rw [Outline.Resolves, Outline.resolve]
    exact .pure (.leaf s)
  | reference n => exact hl n (List.mem_singleton_self n)
  | fault cause =>
    rw [Outline.Resolves, Outline.resolve]
    exact .throw fun hf => hf.elim
  | sequence e r ih =>
    rw [Outline.Resolves, Outline.resolve]
    refine ((ih hl).mono fun _ hf hl => hf hl.1).bind fun s hs => ?_
    cases r with
    | ok readonly => exact .pure (.sequence readonly hs)
    | error cause =>
      refine .throw fun hf => ?_
      obtain ⟨-, b, hb⟩ := hf
      cases hb
  | union ms ih =>
    rw [Outline.Resolves, Outline.resolve]
    have hms : ∀ m ∈ ms, Outline.Resolves ds lookup inv fail m := fun m hm =>
      ih m hm fun n hn => hl n (Outline.mem_allReferences.2 ⟨m, hm, hn⟩)
    exact (Outline.resolveAll_ensures hms).bind fun ss hss => .pure (.union hss)
  | record fs ih =>
    rw [Outline.Resolves, Outline.resolve]
    have hfs : ∀ f ∈ fs, Outline.Resolves ds lookup inv fail f.shape := fun f hf =>
      ih f hf fun n hn => hl n (FieldOutline.mem_allReferences.2 ⟨f, hf, hn⟩)
    refine ((FieldOutline.resolveAll_ensures hfs).mono fun _ hf hl => hf hl.1).bind
      fun r hr => ?_
    cases hof : Record.ofFields r with
    | ok r' =>
      obtain ⟨rfl, hn⟩ := Record.ofFields_eq_ok_iff.1 hof
      exact .pure (.record hr hn)
    | error cause =>
      refine .throw fun hl => ?_
      have : Record.ofFields r = .ok r := Record.ofFields_eq_ok_iff.2 ⟨rfl, hr.names ▸ hl.2⟩
      rw [this] at hof
      cases hof

/-- Where nothing but a fault can fail, what has a meaning is resolved to it. -/
theorem Outline.Resolves.run_eq {o : Outline} {s : Schema}
    (h : Outline.Resolves ds lookup (fun _ => True) (fun _ => False) o)
    (hs : Outline.Means ds o s) : (o.resolve lookup).run' [] = .ok s := by
  have hrun := h [] trivial
  cases hr : o.resolve lookup [] with
  | error cause =>
    rw [hr] at hrun
    exact (hrun hs.isLegal).elim
  | ok p =>
    rw [hr] at hrun
    have hp : p.1 = s := hrun.1.unique hs
    rw [StateT.run', hr, ← hp]
    rfl

end

/-! ## Names -/

namespace Declarations

variable {ds : Declarations}

/-- What is known of names is what they mean. -/
def Knows (ds : Declarations) (known : Resolved) : Prop :=
  ∀ n s, known.lookup n = some s → Outline.Means ds (.reference n) s

/-- A fault that tells of a cycle which is reached from a given name: names without repetition,
each of them referring to the next and the last to the first. -/
def TellsOfCycle (ds : Declarations) (start : Text) (cause : DeclarationFault) : Prop :=
  ∃ c cs, cause = .cyclicReference (c :: cs ++ [c]) ∧ (c :: cs).Nodup ∧
    List.IsChain ds.Refers (c :: cs ++ [c]) ∧ Relation.ReflTransGen ds.Refers start c

theorem resolveName_unknown {inProgress : List Text} {name : Text} {known : Resolved}
    (hk : known.lookup name = none) (hd : ds.lookup name = none) :
    ds.resolveName inProgress name known = .error (.unknownReference name) := by
  rw [resolveName]
  simp only [hk]
  split
  · rfl
  · next h => rw [hd] at h; cases h

theorem resolveName_again {inProgress : List Text} {name : Text} {known : Resolved} {d : Data}
    (hk : known.lookup name = none) (hd : ds.lookup name = some d) (hp : name ∈ inProgress) :
    ds.resolveName inProgress name known =
      .error (.cyclicReference (inProgress.dropWhile (· != name) ++ [name])) := by
  rw [resolveName]
  simp only [hk]
  split
  · next h => rw [hd] at h; cases h
  · exact dif_pos hp

theorem resolveName_fresh {inProgress : List Text} {name : Text} {known : Resolved} {d : Data}
    (hk : known.lookup name = none) (hd : ds.lookup name = some d) (hp : name ∉ inProgress) :
    ds.resolveName inProgress name known =
      match (Outline.ofData ds.declares [] name d).resolve
          (fun n => ds.resolveName (inProgress ++ [name]) n) known with
      | .ok (s, known') => .ok (s, known' ++ [(name, s)])
      | .error cause => .error cause := by
  rw [resolveName]
  simp only [hk]
  split
  · next h => rw [hd] at h; cases h
  · next e h =>
    rw [hd] at h
    cases h
    exact dif_neg hp

/-- Of a path that comes back to one of its names, the part from there on is a cycle. -/
theorem tellsOfCycle_of_mem {start name : Text} {inProgress : List Text}
    (hchain : List.IsChain ds.Refers (inProgress ++ [name])) (hnd : inProgress.Nodup)
    (hreach : Relation.ReflTransGen ds.Refers start name) (hmem : name ∈ inProgress) :
    ds.TellsOfCycle start
      (.cyclicReference (inProgress.dropWhile (· != name) ++ [name])) := by
  obtain ⟨before, after, rfl, hbefore⟩ := List.eq_append_cons_of_mem hmem
  have hdrop : (before ++ name :: after).dropWhile (· != name) = name :: after := by
    rw [List.dropWhile_append_of_pos, List.dropWhile_cons_of_neg (by simp)]
    intro n hn
    simp only [bne_iff_ne, ne_eq]
    rintro rfl
    exact hbefore hn
  refine ⟨name, after, by rw [hdrop], (List.nodup_append.1 hnd).2.1, ?_, hreach⟩
  rw [List.append_assoc] at hchain
  exact hchain.right_of_append

theorem Knows.append {known : Resolved} {name : Text} {s : Schema} (hk : ds.Knows known)
    (h : Outline.Means ds (.reference name) s) : ds.Knows (known ++ [(name, s)]) := by
  intro n t hn
  rw [List.lookup_append] at hn
  cases hl : known.lookup n with
  | some t' =>
    rw [hl] at hn
    cases hn
    exact hk n t hl
  | none =>
    rw [hl, Option.none_or, List.lookup_cons] at hn
    split at hn
    · next he =>
      cases hn
      rw [eq_of_beq he]
      exact h
    · cases hn

/-- The names in progress are a path of references from `start` without repetition. -/
theorem resolveName_ensures (start : Text) (inProgress : List Text) (name : Text)
    (hchain : List.IsChain ds.Refers (inProgress ++ [name])) (hnd : inProgress.Nodup)
    (hreach : Relation.ReflTransGen ds.Refers start name) :
    Resolve.Ensures ds.Knows (ds.resolveName inProgress name) (Outline.Means ds (.reference name))
      fun cause => ds.declares name = true → ds.IsLegal → ds.TellsOfCycle start cause := by
  intro known hk
  cases hs : known.lookup name with
  | some s =>
    rw [resolveName_of_known hs]
    exact ⟨hk name s hs, hk⟩
  | none =>
    cases hd : ds.lookup name with
    | none =>
      rw [resolveName_unknown hs hd]
      intro h
      rw [declares, hd] at h
      cases h
    | some d =>
      by_cases hp : name ∈ inProgress
      · rw [resolveName_again hs hd hp]
        exact fun _ _ => tellsOfCycle_of_mem hchain hnd hreach hp
      · have ho : ds.outline? name = some (Outline.ofData ds.declares [] name d) := by
          rw [outline?, hd, Option.map_some]
        have hspec : Outline.Resolves ds (fun n => ds.resolveName (inProgress ++ [name]) n) ds.Knows
            (fun cause => ds.IsLegal → ds.TellsOfCycle start cause)
            (Outline.ofData ds.declares [] name d) := by
          refine Outline.resolve_ensures fun m hm => ?_
          have hstep : ds.Refers name m := ⟨_, ho, hm⟩
          rw [Outline.Resolves, Outline.resolve]
          refine resolveName_ensures start (inProgress ++ [name]) m ?_ ?_ (hreach.tail hstep)
          · exact hchain.append_overlap (List.isChain_pair.2 hstep) (List.cons_ne_nil _ _)
          · refine List.nodup_append.2 ⟨hnd, List.pairwise_singleton _ _, fun a ha b hb => ?_⟩
            obtain rfl := List.mem_singleton.1 hb
            rintro rfl
            exact hp ha
        have h := hspec known hk
        rw [resolveName_fresh hs hd hp]
        cases hr : (Outline.ofData ds.declares [] name d).resolve
            (fun n => ds.resolveName (inProgress ++ [name]) n) known with
        | error cause =>
          rw [hr] at h
          exact fun _ hl => h (hl name _ ho) hl
        | ok p =>
          rw [hr] at h
          exact ⟨.reference ho h.1, h.2.append (.reference ho h.1)⟩
termination_by ds.pendingCount inProgress
decreasing_by exact pendingCount_lt hd hp

theorem resolveNames_spec {known : Resolved} (hk : ds.Knows known) (names : List Text)
    (hd : ∀ n ∈ names, ds.declares n = true) :
    match ds.resolveNames known names with
    | .ok rs => rs.map Prod.fst = names ∧ ∀ p ∈ rs, Outline.Means ds (.reference p.1) p.2
    | .error cause => ∃ before first after, names = before ++ first :: after ∧
        (∀ n ∈ before, ∃ s, Outline.Means ds (.reference n) s) ∧
        (ds.IsLegal → ds.TellsOfCycle first cause) := by
  induction names generalizing known with
  | nil => simp [resolveNames]
  | cons n names ih =>
    have h := resolveName_ensures n [] n (List.isChain_singleton n) List.nodup_nil .refl
      known hk
    have hn := hd n (List.mem_cons_self ..)
    rw [resolveNames]
    cases hr : ds.resolveName [] n known with
    | error cause =>
      rw [hr] at h
      exact ⟨[], n, names, rfl, fun _ hm => (List.not_mem_nil hm).elim, h hn⟩
    | ok p =>
      obtain ⟨s, known'⟩ := p
      rw [hr] at h
      have hrest := ih h.2 fun m hm => hd m (List.mem_cons_of_mem _ hm)
      simp only [Bind.bind, Except.bind]
      cases hrs : ds.resolveNames known' names with
      | error cause =>
        rw [hrs] at hrest
        obtain ⟨before, first, after, rfl, hbefore, hcycle⟩ := hrest
        exact ⟨n :: before, first, after, rfl,
          List.forall_mem_cons.2 ⟨⟨s, h.1⟩, hbefore⟩, hcycle⟩
      | ok rs =>
        rw [hrs] at hrest
        exact ⟨by rw [List.map_cons, hrest.1], List.forall_mem_cons.2 ⟨h.1, hrest.2⟩⟩

theorem knows_nil : ds.Knows [] := by
  intro n s h
  cases h

theorem declares_of_mem {n : Text} (h : n ∈ ds.map Prod.fst) : ds.declares n = true := by
  obtain ⟨p, hp, rfl⟩ := List.mem_map.1 h
  rw [declares, List.lookup_isSome_iff]
  exact ⟨p, hp, beq_self_eq_true _⟩

theorem mem_of_declares {n : Text} (h : ds.declares n = true) : n ∈ ds.map Prod.fst := by
  rw [declares, List.lookup_isSome_iff] at h
  obtain ⟨p, hp, he⟩ := h
  exact List.mem_map.2 ⟨p, hp, (eq_of_beq he).symm⟩

/-- A cycle told of leads from a name back to it. -/
theorem TellsOfCycle.exists_cycle {start : Text} {cause : DeclarationFault}
    (h : ds.TellsOfCycle start cause) :
    ∃ c, Relation.ReflTransGen ds.Refers start c ∧ Relation.TransGen ds.Refers c c := by
  obtain ⟨c, cs, -, -, hchain, hreach⟩ := h
  refine ⟨c, hreach, ?_⟩
  cases cs with
  | nil => exact .single (List.isChain_pair.1 hchain)
  | cons d ds' =>
    obtain ⟨hcd, hrest⟩ := List.isChain_cons_cons.1 hchain
    exact .head' hcd (List.relationReflTransGen_of_exists_isChain_cons _ hrest (by simp))

/-- What is resolved is what the names mean, in the order of the declarations. -/
theorem means_of_resolve {rs : Resolved} (h : ds.resolve = .ok rs) :
    rs.map Prod.fst = ds.map Prod.fst ∧ ∀ p ∈ rs, Outline.Means ds (.reference p.1) p.2 := by
  have hspec := resolveNames_spec knows_nil (ds.map Prod.fst) fun n hn => declares_of_mem hn
  rw [← resolve, h] at hspec
  exact hspec

theorem exists_means_of_resolve {rs : Resolved} (h : ds.resolve = .ok rs) (n : Text)
    (hn : ds.declares n = true) : ∃ s, Outline.Means ds (.reference n) s := by
  obtain ⟨hnames, hmeans⟩ := means_of_resolve h
  obtain ⟨p, hp, rfl⟩ := List.mem_map.1 (hnames ▸ mem_of_declares hn)
  exact ⟨p.2, hmeans p hp⟩

/-- What is resolved under a name is what the name means. -/
theorem lookup_of_means {rs : Resolved} (h : ds.resolve = .ok rs) {n : Text} {s : Schema}
    (hs : Outline.Means ds (.reference n) s) : rs.lookup n = some s := by
  obtain ⟨hnames, hmeans⟩ := means_of_resolve h
  have hn : ds.declares n = true := by
    cases hs with
    | reference ho _ => rw [← isSome_outline?, ho]; rfl
  obtain ⟨p, hp, rfl⟩ := List.mem_map.1 (hnames ▸ mem_of_declares hn)
  obtain ⟨t, ht⟩ := Option.isSome_iff_exists.1
    (List.lookup_isSome_iff.2 ⟨p, hp, beq_self_eq_true p.1⟩)
  obtain ⟨before, after, rfl, -⟩ := List.lookup_eq_some_iff.1 ht
  rw [ht, hs.unique (hmeans (p.1, t) (List.mem_append_right _ (List.mem_cons_self ..)))]

/-- Without faults in the declarations, what cannot be resolved is a cycle, reached from the first
name that reaches any. -/
theorem resolve_error {cause : DeclarationFault} (hl : ds.IsLegal)
    (h : ds.resolve = .error cause) :
    ∃ before first after, ds.map Prod.fst = before ++ first :: after ∧
      (∀ n ∈ before, ∀ c, Relation.ReflTransGen ds.Refers n c →
        ¬ Relation.TransGen ds.Refers c c) ∧ ds.TellsOfCycle first cause := by
  have hspec := resolveNames_spec knows_nil (ds.map Prod.fst) fun n hn => declares_of_mem hn
  rw [← resolve, h] at hspec
  obtain ⟨before, first, after, hnames, hbefore, hcycle⟩ := hspec
  refine ⟨before, first, after, hnames, fun n hn => ?_, hcycle hl⟩
  obtain ⟨s, hs⟩ := hbefore n hn
  exact not_cycle_of_acc (hs.acc n (List.mem_singleton_self n))

/-- Where every declared name has a meaning, no declaration has a fault and no name leads back to
itself. -/
theorem isLegal_of_means
    (h : ∀ n, ds.declares n = true → ∃ s, Outline.Means ds (.reference n) s) :
    ds.IsLegal ∧ ∀ n, ¬ Relation.TransGen ds.Refers n n := by
  constructor
  · intro n o ho
    obtain ⟨s, hs⟩ := h n (by rw [← isSome_outline?, ho]; rfl)
    cases hs with
    | reference ho' hm =>
      rw [ho] at ho'
      cases ho'
      exact hm.isLegal
  · intro n hn
    obtain ⟨m, hnm, -⟩ := Relation.TransGen.head'_iff.1 hn
    obtain ⟨s, hs⟩ := h n hnm.declares
    exact not_cycle_of_acc (hs.acc n (List.mem_singleton_self n)) n .refl hn

theorem exists_resolve_iff : (∃ rs, ds.resolve = .ok rs) ↔
    ds.IsLegal ∧ ∀ n, ¬ Relation.TransGen ds.Refers n n := by
  constructor
  · rintro ⟨rs, hrs⟩
    exact isLegal_of_means (exists_means_of_resolve hrs)
  · rintro ⟨hl, hacyclic⟩
    cases hr : ds.resolve with
    | ok rs => exact ⟨rs, rfl⟩
    | error cause =>
      obtain ⟨-, first, -, -, -, hcycle⟩ := resolve_error hl hr
      obtain ⟨c, -, hc⟩ := hcycle.exists_cycle
      exact absurd hc (hacyclic c)

end Declarations

end ShapeAlgebra
