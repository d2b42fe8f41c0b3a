import ShapeAlgebra.Proofs.Declaration.Machine
import ShapeAlgebra.Proofs.Record.Provenance

/-!
# Every call of resolution returns

Reading a shape and resolving a name are calls: what waits when they begin waits unchanged until
they return, and they return with what the definitions of resolution say of them. A name in progress
is one for each frame of a declaration, so that a call leaves the names in progress as it found
them, whether it gives a schema or fails.

Where a declaration is begun, there is one less to begin with while it is read. This is what the
induction over the calls of names is on; within a declaration it is on the outline that is read.

Results:

* `Comes.bind`: what waits goes on with what a call returns, and fails if the call does.
* `comes_of_shape`, `comes_of_name`: the calls return what is defined.
* `Sound.orderly`: the names in progress are a path of references, without repetition and apart from
  what is known.
* `resolves_in_order`: resolution goes on in order from state to state until it ends.
-/

namespace ShapeAlgebra.Resolver

variable {ds : Declarations} {σ τ ρ : State} {f : Frame} {k : List Frame} {n : Text}
  {p : List Text} {x : Except DeclarationFault (Schema × Resolved)}

/-! ## Calls -/

/-- Whether a schema is given, or what waits is left without one. -/
def Control.IsAnswer : Control → Prop
  | .give _ | .fail _ => True
  | _ => False

/-- Whether a call within the frames `k` is under way. -/
structure Within (k : List Frame) (σ : State) : Prop where
  frames : k <:+ σ.frames
  unanswered : σ.frames = k → ¬ σ.control.IsAnswer

/-- Whether a call within the frames `k` that is under way in the first state returns in the
second. -/
structure Returns (ds : Declarations) (k : List Frame) (σ τ : State) : Prop where
  run : Relation.ReflTransGen (fun ρ ρ' => Within k ρ ∧ step ds ρ = some ρ') σ τ
  frames : τ.frames = k
  answer : τ.control.IsAnswer

/-- Whether a state has the result of a call: a schema and what is known after it, or a failure. -/
def State.Answers (σ : State) : Except DeclarationFault (Schema × Resolved) → Prop
  | .ok (s, known) => σ.control = .give s ∧ σ.known = known
  | .error cause => σ.control = .fail cause

/-- Whether a call within the frames `k` returns with a given result. -/
def Comes (ds : Declarations) (k : List Frame) (σ : State)
    (x : Except DeclarationFault (Schema × Resolved)) : Prop :=
  ∃ τ, Returns ds k σ τ ∧ τ.Answers x

/-- What waits above the frames of a call is not at the end of that call. -/
theorem within_of_suffix (h : f :: k <:+ σ.frames) : Within k σ := by
  refine ⟨(List.suffix_cons f k).trans h, fun hk => ?_⟩
  have hle := h.length_le
  rw [hk, List.length_cons] at hle
  omega

theorem Returns.reaches (h : Returns ds k σ τ) : StateTransition.Reaches (step ds) σ τ :=
  Relation.ReflTransGen.mono (fun _ _ hs => hs.2) _ _ h.run

/-- A call that was made by another is part of it. -/
theorem Returns.trans (h : Returns ds (f :: k) σ τ) (hs : step ds τ = some ρ) {υ : State}
    (h' : Returns ds k ρ υ) : Returns ds k σ υ := by
  have hinner := Relation.ReflTransGen.mono
    (fun _ _ hw => And.intro (within_of_suffix hw.1.frames) hw.2) _ _ h.run
  have hend : f :: k <:+ τ.frames := h.frames ▸ List.suffix_rfl
  exact ⟨hinner.trans (.head ⟨within_of_suffix hend, hs⟩ h'.run), h'.frames, h'.answer⟩

theorem comes_of_give {s : Schema} (hf : σ.frames = k) (hc : σ.control = .give s) :
    Comes ds k σ (.ok (s, σ.known)) :=
  ⟨σ, ⟨.refl, hf, by rw [hc]; trivial⟩, hc, rfl⟩

theorem comes_of_fail {cause : DeclarationFault} (hf : σ.frames = k)
    (hc : σ.control = .fail cause) : Comes ds k σ (.error cause) :=
  ⟨σ, ⟨.refl, hf, by rw [hc]; trivial⟩, hc⟩

/-- A call returns as it does after its first step. -/
theorem Comes.head (h : Comes ds σ.frames τ x) (hc : ¬ σ.control.IsAnswer)
    (hs : step ds σ = some τ) : Comes ds σ.frames σ x := by
  obtain ⟨ρ, hret, hans⟩ := h
  have hw : Within σ.frames σ := ⟨List.suffix_rfl, fun _ => hc⟩
  exact ⟨ρ, ⟨.head ⟨hw, hs⟩ hret.run, hret.frames, hret.answer⟩, hans⟩

/-- What waits for a call goes on with its result, and fails if the call does. -/
theorem Comes.bind (h : Comes ds (f :: k) σ x) (hσ : Sound ds σ)
    {g : Schema × Resolved → Except DeclarationFault (Schema × Resolved)}
    (hg : ∀ s ρ, Sound ds ρ → ρ.frames = f :: k → ρ.control = .give s →
      Comes ds k ((ρ.leave f k).resume s f) (g (s, ρ.known))) : Comes ds k σ (x >>= g) := by
  obtain ⟨ρ, hret, hans⟩ := h
  match x, hans with
  | .error cause, hans =>
    -- The frame is left, and the failure stands within the frames of the call.
    have hs : step ds ρ = some ((ρ.leave f k).go (.fail cause)) := by
      rw [step, show ρ.control = .fail cause from hans, hret.frames]
    exact ⟨_, hret.trans hs ⟨.refl, rfl, trivial⟩, rfl⟩
  | .ok (s, known), ⟨hc, hknown⟩ =>
    have hs : step ds ρ = some ((ρ.leave f k).resume s f) := by
      rw [step, hc, hret.frames]
    obtain ⟨τ, hτ, hans⟩ := hg s ρ (sound_of_reaches hσ hret.reaches) hret.frames hc
    rw [hknown] at hans
    exact ⟨τ, hret.trans hs hτ, hans⟩

/-! ## Reading shapes -/

/-- Whether shapes of an outline are read as is defined, while the names `p` are in progress. -/
def ShapeComes (ds : Declarations) (p : List Text) (o : Outline) : Prop :=
  ∀ σ, Sound ds σ → σ.control = .shape o → opened σ.frames = p →
    Comes ds σ.frames σ (o.resolve (ds.resolveName p) σ.known)

/-- Whether a name is resolved as is defined, while the names `p` are in progress. -/
def NameComes (ds : Declarations) (p : List Text) (n : Text) : Prop :=
  ∀ σ, Sound ds σ → σ.control = .name n → opened σ.frames = p →
    Comes ds σ.frames σ (ds.resolveName p n σ.known)

theorem step_of_shape {o : Outline} (hc : σ.control = .shape o) :
    step ds σ = some (σ.read o) := by
  rw [step, hc]

theorem step_of_name (hc : σ.control = .name n) : step ds σ = some (σ.enter ds n) := by
  rw [step, hc]

theorem sound_resume {s : Schema} (h : Sound ds σ) (hf : σ.frames = f :: k)
    (hc : σ.control = .give s) : Sound ds ((σ.leave f k).resume s f) :=
  sound_step h (by rw [step, hc, hf])

/-- The members after others: a member is read, and then those after it. -/
theorem resolveAll_members (lookup : Text → Resolve Schema) (before : List Schema) (o : Outline)
    (os : List Outline) (known : Resolved) :
    (Outline.resolveAll lookup (o :: os) known >>= fun q =>
        (.ok (.unionOf (before ++ q.1), q.2) : Except DeclarationFault (Schema × Resolved))) =
      o.resolve lookup known >>= fun r => Outline.resolveAll lookup os r.2 >>= fun q =>
        .ok (.unionOf (before ++ [r.1] ++ q.1), q.2) := by
  have hcons : Outline.resolveAll lookup (o :: os) known = o.resolve lookup known >>= fun r =>
      Outline.resolveAll lookup os r.2 >>= fun q => .ok (r.1 :: q.1, q.2) := by
    rw [Outline.resolveAll]
    rfl
  rw [hcons, bind_assoc]
  refine bind_congr fun r => ?_
  rw [bind_assoc]
  refine bind_congr fun q => ?_
  exact congrArg (fun ss => Except.ok (Schema.unionOf ss, q.2)) (List.append_cons before r.1 q.1)

theorem comes_of_members {os : List Outline} (ho : ∀ o ∈ os, ShapeComes ds p o)
    (before : List Schema) (h : Sound ds (σ.nextMember before os)) (hp : opened σ.frames = p) :
    Comes ds σ.frames (σ.nextMember before os)
      (Outline.resolveAll (ds.resolveName p) os σ.known >>= fun q =>
        .ok (.unionOf (before ++ q.1), q.2)) := by
  induction os generalizing σ before with
  | nil =>
    refine comes_of_give rfl ?_
    simp [State.nextMember, State.go]
  | cons o os ih =>
    obtain ⟨ho, hos⟩ := List.forall_mem_cons.1 ho
    rw [resolveAll_members]
    refine (ho _ h rfl ((opened_cons_of_opens_eq_nil rfl).trans hp)).bind h fun s ρ hρ hf hc => ?_
    exact ih hos (before ++ [s]) (sound_resume hρ hf hc) hp

/-- The fields after others: a field is read, and then those after it. -/
theorem resolveAll_fields (lookup : Text → Resolve Schema) (before : List Field) (name : Text)
    (flags : Flags) (o : Outline) (os : List FieldOutline) (known : Resolved)
    (result : List Field → Resolved → Except DeclarationFault (Schema × Resolved)) :
    (FieldOutline.resolveAll lookup (⟨name, flags, o⟩ :: os) known >>= fun q =>
        result (before ++ q.1) q.2) =
      o.resolve lookup known >>= fun r => FieldOutline.resolveAll lookup os r.2 >>= fun q =>
        result (before ++ [⟨name, r.1, flags⟩] ++ q.1) q.2 := by
  have hcons : FieldOutline.resolveAll lookup (⟨name, flags, o⟩ :: os) known =
      o.resolve lookup known >>= fun r => FieldOutline.resolveAll lookup os r.2 >>= fun q =>
        .ok (⟨name, r.1, flags⟩ :: q.1, q.2) := by
    rw [FieldOutline.resolveAll]
    rfl
  rw [hcons, bind_assoc]
  refine bind_congr fun r => ?_
  rw [bind_assoc]
  refine bind_congr fun q => ?_
  exact congrArg (result · q.2) (List.append_cons before _ q.1)

/-- The record of fields, unless a name comes twice. -/
def recordOf (fs : List Field) (known : Resolved) : Except DeclarationFault (Schema × Resolved) :=
  match Record.ofFields fs with
  | .ok r => .ok (.record r, known)
  | .error cause => .error (.failure cause)

theorem comes_of_fields {os : List FieldOutline} (ho : ∀ o ∈ os, ShapeComes ds p o.shape)
    (before : List Field) (h : Sound ds (σ.nextField before os)) (hp : opened σ.frames = p) :
    Comes ds σ.frames (σ.nextField before os)
      (FieldOutline.resolveAll (ds.resolveName p) os σ.known >>= fun q =>
        recordOf (before ++ q.1) q.2) := by
  induction os generalizing σ before with
  | nil =>
    have hnil : (FieldOutline.resolveAll (ds.resolveName p) [] σ.known >>= fun q =>
        recordOf (before ++ q.1) q.2) = recordOf before σ.known := by
      rw [FieldOutline.resolveAll]
      exact congrArg (recordOf · σ.known) (List.append_nil before)
    rw [hnil, recordOf, State.nextField]
    cases Record.ofFields before with
    | ok r => exact comes_of_give rfl rfl
    | error cause => exact comes_of_fail rfl rfl
  | cons o os ih =>
    obtain ⟨name, flags, o⟩ := o
    obtain ⟨ho, hos⟩ := List.forall_mem_cons.1 ho
    rw [resolveAll_fields _ _ _ _ _ _ _ recordOf]
    refine (ho _ h rfl ((opened_cons_of_opens_eq_nil rfl).trans hp)).bind h fun s ρ hρ hf hc => ?_
    have hnext : Sound ds ((ρ.leave (.field before name flags os) σ.frames).nextField
        (before ++ [⟨name, s, flags⟩]) os) := sound_resume hρ hf hc
    exact ih hos _ hnext hp

theorem comes_of_read {o : Outline} (hc : σ.control = .shape o)
    (h : Comes ds σ.frames (σ.read o) x) : Comes ds σ.frames σ x :=
  h.head (by rw [hc]; exact id) (step_of_shape hc)

/-- A shape is read as is defined, if names are resolved so. -/
theorem comes_of_shape (hn : ∀ n, NameComes ds p n) (o : Outline) : ShapeComes ds p o := by
  induction o using Outline.induction with
  | leaf s =>
    intro σ _ hc _
    rw [Outline.resolve]
    exact comes_of_read hc (comes_of_give rfl rfl)
  | reference n =>
    intro σ h hc hp
    rw [Outline.resolve]
    exact comes_of_read hc (hn n _ (sound_step h (step_of_shape hc)) rfl hp)
  | fault cause =>
    intro σ _ hc _
    rw [Outline.resolve]
    exact comes_of_read hc (comes_of_fail rfl rfl)
  | sequence e r ih =>
    intro σ h hc hp
    have hnext := sound_step h (step_of_shape hc)
    have hcall := ih _ hnext rfl ((opened_cons_of_opens_eq_nil rfl).trans hp)
    rw [Outline.resolve]
    refine comes_of_read hc (hcall.bind hnext fun s ρ hρ hf hs => ?_)
    cases r with
    | ok readonly => exact comes_of_give rfl rfl
    | error cause => exact comes_of_fail rfl rfl
  | union ms ih =>
    intro σ h hc hp
    rw [Outline.resolve]
    exact comes_of_read hc (comes_of_members ih [] (sound_step h (step_of_shape hc)) hp)
  | record fs ih =>
    intro σ h hc hp
    have hcall := comes_of_fields ih [] (sound_step h (step_of_shape hc)) hp
    have hresult : (Outline.record fs).resolve (ds.resolveName p) σ.known =
        FieldOutline.resolveAll (ds.resolveName p) fs σ.known >>= fun q =>
          recordOf ([] ++ q.1) q.2 := by
      rw [Outline.resolve]
      simp only [bind, StateT.bind, Except.bind, recordOf, List.nil_append]
      cases FieldOutline.resolveAll (ds.resolveName p) fs σ.known with
      | error cause => rfl
      | ok q =>
        dsimp only
        cases Record.ofFields q.1 <;> rfl
    rw [hresult]
    exact comes_of_read hc hcall

/-! ## Resolving names -/

/-- What is defined for a name whose declaration is begun. -/
theorem resolveName_eq_bind {d : Data} {known : Resolved} (hk : known.lookup n = none)
    (hd : ds.lookup n = some d) (hp : n ∉ p) :
    ds.resolveName p n known =
      (Outline.ofData ds.declares [] n d).resolve (ds.resolveName (p ++ [n])) known >>= fun q =>
        .ok (q.1, q.2 ++ [(n, q.1)]) := by
  rw [Declarations.resolveName_fresh hk hd hp]
  cases (Outline.ofData ds.declares [] n d).resolve (ds.resolveName (p ++ [n])) known <;> rfl

theorem enter_of_fresh {d : Data} (hk : σ.known.lookup n = none) (hd : ds.lookup n = some d)
    (hp : n ∉ σ.inProgress) : σ.enter ds n = σ.begin ds n d := by
  simp only [State.enter, hk, hd, if_neg hp]

/-- The schema of a name is kept behind what is known, where the name is not. -/
theorem comes_of_keep {s : Schema} (h : Sound ds σ) (hc : σ.control = .keep n s) :
    Comes ds σ.frames σ (.ok (s, σ.known ++ [(n, s)])) := by
  have hs : step ds σ = some (σ.keep n s) := by rw [step, hc]
  have hgive : Comes ds σ.frames (σ.keep n s) (.ok (s, (σ.keep n s).known)) :=
    comes_of_give rfl rfl
  rw [← h.keep_known hc]
  exact hgive.head (by rw [hc]; exact id) hs

/-- A name is resolved as is defined. -/
theorem comes_of_name (p : List Text) (n : Text) : NameComes ds p n := by
  intro σ h hc hp
  have hs : step ds σ = some (σ.enter ds n) := step_of_name hc
  refine Comes.head ?_ (by rw [hc]; exact id) hs
  cases hk : σ.known.lookup n with
  | some s =>
    rw [Declarations.resolveName_of_known hk]
    simp only [State.enter, hk]
    exact comes_of_give rfl rfl
  | none =>
    cases hd : ds.lookup n with
    | none =>
      rw [Declarations.resolveName_unknown hk hd]
      simp only [State.enter, hk, hd]
      exact comes_of_fail rfl rfl
    | some d =>
      have hstack : σ.inProgress = p := h.stack.trans hp
      by_cases hmem : n ∈ p
      · rw [Declarations.resolveName_again hk hd hmem]
        simp only [State.enter, hk, hd, hstack, if_pos hmem]
        exact comes_of_fail rfl rfl
      · rw [enter_of_fresh hk hd (hstack ▸ hmem)] at hs ⊢
        rw [resolveName_eq_bind hk hd hmem]
        have hnext := sound_step h hs
        -- The shape of the declaration is read with one name more in progress, and then kept.
        have hopened : opened (σ.begin ds n d).frames = p ++ [n] := congrArg (· ++ [n]) hp
        have hcall := comes_of_shape (fun m => comes_of_name (p ++ [n]) m) _ _ hnext rfl hopened
        refine hcall.bind hnext fun s ρ hρ hf hgive => ?_
        exact comes_of_keep (sound_resume hρ hf hgive) rfl
termination_by ds.pendingCount p
decreasing_by exact Declarations.pendingCount_lt hd hmem

/-! ## Resolving all names -/

/-- How resolution ended, if it has ended. -/
def State.outcome? (σ : State) : Option (Except DeclarationFault Resolved) :=
  match σ.control, σ.frames with
  | .done rs, _ => some (.ok rs)
  | .fail cause, [] => some (.error cause)
  | _, _ => none

theorem step_eq_none_of_outcome? {r : Except DeclarationFault Resolved}
    (h : σ.outcome? = some r) : step ds σ = none := by
  rw [State.outcome?] at h
  split at h
  · next hc => rw [step, hc]
  · next hc hf => rw [step, hc, hf]
  · cases h

theorem control_eq_of_outcome? {rs : Resolved} (h : σ.outcome? = some (.ok rs)) :
    σ.control = .done rs := by
  rw [State.outcome?] at h
  split at h
  · next hc =>
    cases h
    exact hc
  · cases h
  · cases h

/-- What was resolved is known. -/
theorem mem_known_of_resolveName {s : Schema} {known known' : Resolved}
    (h : ds.resolveName p n known = .ok (s, known')) : n ∈ known'.map Prod.fst := by
  cases hk : known.lookup n with
  | some t =>
    rw [Declarations.resolveName_of_known hk] at h
    cases h
    obtain ⟨before, after, rfl, -⟩ := List.lookup_eq_some_iff.1 hk
    simp
  | none =>
    cases hd : ds.lookup n with
    | none =>
      rw [Declarations.resolveName_unknown hk hd] at h
      cases h
    | some d =>
      by_cases hmem : n ∈ p
      · rw [Declarations.resolveName_again hk hd hmem] at h
        cases h
      · rw [resolveName_eq_bind hk hd hmem] at h
        obtain ⟨q, -, h⟩ := exists_of_bind_eq_ok h
        cases h
        simp

/-- The names of a catalog are resolved one after another, and then they are all known. -/
theorem exists_outcome_of_nextName (hf : σ.frames = []) (before : Resolved) (ns : List Text)
    (h : Sound ds (σ.nextName before ns)) :
    ∃ τ, StateTransition.Reaches (step ds) (σ.nextName before ns) τ ∧
      τ.outcome? = some ((ds.resolveNames σ.known ns).map (before ++ ·)) ∧
      ∀ rs, τ.control = .done rs → ∀ n ∈ ns, n ∈ τ.known.map Prod.fst := by
  induction ns generalizing σ before with
  | nil =>
    refine ⟨_, .refl, ?_, fun _ _ => List.forall_mem_nil _⟩
    simp [State.nextName, State.go, State.outcome?, Declarations.resolveNames, Except.map]
  | cons n ns ih =>
    have hopened : opened (σ.push (.catalog before n ns) (.name n)).frames = [] := by
      rw [State.push, opened_cons_of_opens_eq_nil rfl, hf, opened]
    obtain ⟨ρ, hret, hans⟩ := comes_of_name [] n _ h rfl hopened
    have hρ := sound_of_reaches h hret.reaches
    have hframes : ρ.frames = .catalog before n ns :: σ.frames := hret.frames
    rw [Declarations.resolveNames]
    change ρ.Answers (ds.resolveName [] n σ.known) at hans
    cases hr : ds.resolveName [] n σ.known with
    | error cause =>
      rw [hr] at hans
      have hs : step ds ρ =
          some ((ρ.leave (.catalog before n ns) σ.frames).go (.fail cause)) := by
        rw [step, show ρ.control = .fail cause from hans, hframes]
      refine ⟨_, hret.reaches.tail hs, ?_, fun rs hdone => by cases hdone⟩
      simp only [State.outcome?, State.go, State.leave, hf]
      rfl
    | ok r =>
      obtain ⟨s, known⟩ := r
      rw [hr] at hans
      obtain ⟨hc, hknown⟩ := hans
      have hnext := sound_resume hρ hframes hc
      have hs : step ds ρ = some ((ρ.leave (.catalog before n ns) σ.frames).nextName
          (before ++ [(n, s)]) ns) := by
        rw [step, hc, hframes]
        rfl
      have hempty : (ρ.leave (.catalog before n ns) σ.frames).frames = [] := hf
      obtain ⟨τ, hrun, hout, hall⟩ := ih hempty (before ++ [(n, s)]) hnext
      refine ⟨τ, (hret.reaches.tail hs).trans hrun, ?_, fun rs hdone => ?_⟩
      · rw [hout, show (ρ.leave (.catalog before n ns) σ.frames).known = known from hknown]
        simp only [bind, Except.bind, pure, Except.pure]
        cases ds.resolveNames known ns <;> simp [Except.map]
      · refine List.forall_mem_cons.2 ⟨?_, hall rs hdone⟩
        have hmem : n ∈ ρ.known.map Prod.fst := hknown ▸ mem_known_of_resolveName hr
        have hstays : ρ.known <+: τ.known := prefix_of_reaches hρ (.head hs hrun)
        exact (hstays.map Prod.fst).subset hmem

/-- Resolution ends, as is defined, and in the end all names are known unless it fails. -/
theorem exists_outcome (ds : Declarations) : ∃ τ, Reached ds τ ∧ τ.outcome? = some ds.resolve ∧
    ∀ rs, τ.control = .done rs → ∀ n, ds.declares n = true → n ∈ τ.known.map Prod.fst := by
  have h : Sound ds (State.nextName ⟨.done [], [], [], [], []⟩ [] (ds.map Prod.fst)) :=
    sound_start ds
  obtain ⟨τ, hrun, hout, hall⟩ := exists_outcome_of_nextName rfl [] (ds.map Prod.fst) h
  refine ⟨τ, hrun, ?_, fun rs hdone n hn => hall rs hdone n (Declarations.mem_of_declares hn)⟩
  rw [hout, Declarations.resolve]
  cases ds.resolveNames [] (ds.map Prod.fst) <;> rfl

/-! ## Order -/

/-- Whether a frame is that of a declaration. -/
def Frame.isDeclaration : Frame → Bool
  | .declaration _ => true
  | _ => false

/-- How many resolutions of names are under way: those whose declarations are read, and one that is
about to begin or to end. -/
def State.nesting (σ : State) : Nat :=
  σ.frames.countP Frame.isDeclaration + match σ.control with
    | .name _ | .keep .. => 1
    | _ => 0

theorem length_opened (k : List Frame) : (opened k).length = k.countP Frame.isDeclaration := by
  induction k with
  | nil => rfl
  | cons f k ih =>
    rw [opened, List.length_append, ih, List.countP_cons]
    cases f <;> rfl

/-- What a call that begins in a state is defined to give. -/
def State.called? (ds : Declarations) (σ : State) :
    Option (Except DeclarationFault (Schema × Resolved)) :=
  match σ.control with
  | .shape o => some (o.resolve (ds.resolveName σ.inProgress) σ.known)
  | .name n => some (ds.resolveName σ.inProgress n σ.known)
  | _ => none

/-- The order of a single state. -/
structure State.Orderly (ds : Declarations) (σ : State) : Prop where
  distinct : σ.inProgress.Nodup
  declared : ∀ n ∈ σ.inProgress, ds.declares n = true
  /-- Each name in progress refers to the next. -/
  path : List.IsChain ds.Refers σ.inProgress
  /-- No name is known and in progress. -/
  apart : ∀ n ∈ σ.inProgress, n ∉ σ.known.map Prod.fst
  /-- No more resolutions are under way than names are declared, and one. -/
  nesting : σ.nesting ≤ (ds.map Prod.fst).dedup.length + 1

theorem Sound.orderly (h : Sound ds σ) : σ.Orderly ds := by
  have hnd := (List.nodup_append.1 h.nodup_held).2.1
  have hdistinct : σ.inProgress.Nodup := (List.nodup_append.1 hnd).1
  have hdeclared : ∀ n ∈ σ.inProgress, ds.declares n = true := fun n hn =>
    h.declared n (h.mem_begun (List.mem_append_right _ (List.mem_append_left _ hn)))
  have hlength : σ.inProgress.length ≤ (ds.map Prod.fst).dedup.length := by
    refine (List.subperm_of_subset hdistinct fun n hn => ?_).length_le
    exact List.mem_dedup.2 (Declarations.mem_of_declares (hdeclared n hn))
  refine ⟨hdistinct, hdeclared, ?_, fun n hn => h.not_mem_known (List.mem_append_left _ hn), ?_⟩
  · rw [h.stack]
    exact h.traced.frames.isChain
  · rw [State.nesting, ← length_opened, ← h.stack]
    split <;> omega

/-- Resolution goes on in order. -/
structure ResolvesInOrder (ds : Declarations) : Prop where
  orderly (σ : State) : Reached ds σ → σ.Orderly ds
  /-- What is known stays, new names come behind it, and no name comes twice. -/
  grows (σ τ : State) : Reached ds σ → StateTransition.Reaches (step ds) σ τ →
    σ.known <+: τ.known ∧ (τ.known.map Prod.fst).Nodup ∧
      ∀ n s, σ.known.lookup n = some s → τ.known.lookup n = some s
  /-- Every call returns, and with what is defined for it. -/
  returns (σ : State) (x : Except DeclarationFault (Schema × Resolved)) : Reached ds σ →
    σ.called? ds = some x → ∃ τ, Returns ds σ.frames σ τ ∧ τ.Answers x
  /-- A call leaves the names in progress as it found them, with a result or without one. -/
  restores (σ τ : State) : Reached ds σ → Returns ds σ.frames σ τ → τ.inProgress = σ.inProgress
  /-- Resolution ends as is defined, whatever state it has reached. If it does not fail, then each
  declaration was begun once, and nothing else. -/
  ends : ∃ τ, τ.outcome? = some ds.resolve ∧
    (∀ σ, Reached ds σ → τ ∈ StateTransition.eval (step ds) σ) ∧
    ∀ rs, ds.resolve = .ok rs → ∀ n, τ.begun.count n = if ds.declares n then 1 else 0

theorem resolves_in_order (ds : Declarations) : ResolvesInOrder ds where
  orderly σ h := h.sound.orderly
  grows σ τ h hr := by
    have hτ : Sound ds τ := sound_of_reaches h.sound hr
    exact ⟨prefix_of_reaches h.sound hr, (List.nodup_append.1 hτ.nodup_held).1,
      fun n s => lookup_of_reaches h.sound hr⟩
  returns σ x h hx := by
    rw [State.called?] at hx
    split at hx
    · next o hc =>
      cases hx
      have hp : opened σ.frames = σ.inProgress := h.sound.stack.symm
      exact comes_of_shape (comes_of_name σ.inProgress) o σ h.sound hc hp
    · next n hc =>
      cases hx
      exact comes_of_name σ.inProgress n σ h.sound hc h.sound.stack.symm
    · cases hx
  restores σ τ h hr := by
    have hτ : Sound ds τ := sound_of_reaches h.sound hr.reaches
    rw [hτ.stack, hr.frames, h.sound.stack]
  ends := by
    obtain ⟨τ, hτ, hout, hall⟩ := exists_outcome ds
    have hend : τ ∈ StateTransition.eval (step ds) (start ds) :=
      StateTransition.mem_eval.2 ⟨hτ, step_eq_none_of_outcome? hout⟩
    refine ⟨τ, hout, fun σ h => StateTransition.reaches_eval h ▸ hend, fun rs hrs n => ?_⟩
    have hdone : τ.control = .done rs := control_eq_of_outcome? (hrs ▸ hout)
    split
    · next hn =>
      have hheld : n ∈ τ.held := List.mem_append_left _ (hall rs hdone n hn)
      exact List.count_eq_one_of_mem hτ.sound.once (hτ.sound.mem_begun hheld)
    · next hn => exact List.count_eq_zero.2 fun hmem => hn (hτ.sound.declared n hmem)

end ShapeAlgebra.Resolver
