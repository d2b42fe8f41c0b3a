import Mathlib.Computability.StateTransition
import ShapeAlgebra.Proofs.Declaration.Resolution
import ShapeAlgebra.Proofs.Yaml.Filling

/-!
# Resolution step by step

Resolution as a machine, so that something can be said of the states in between. A state has what is
to be done next, the frames of the readings that wait for a result, the names whose declarations are
being read, and what is known. A failure leaves the frames one after another, and with each frame of
a declaration its name, as a result does. Moreover a state has a list of the names whose
declarations were begun, which no step looks at.

Most steps do not touch names at all. A declaration is begun, it is read to its end, its schema is
kept, or it is abandoned, and that is all there is beside them (`moves_of_step`).

Results:

* `traced_step`: what is still to be read in a declaration are references of that declaration.
* `sound_step`, `sound_of_reaches`: the names in progress are those of the frames, and each name
  that was begun is known, in progress or abandoned, and no two of these.
* `prefix_of_reaches`: what is known stays, and new names come behind it.
-/

namespace ShapeAlgebra.Resolver

/-! ## The machine -/

/-- What waits for the schema of a part. -/
inductive Frame where
  /-- A sequence that waits for its element. -/
  | element (readonly : Except DeclarationFault Bool)
  /-- A union that waits for a member, with the members read before and the outlines after it. -/
  | member (before : List Schema) (after : List Outline)
  /-- A record that waits for the shape of a field. -/
  | field (before : List Field) (name : Text) (flags : Flags) (after : List FieldOutline)
  /-- A name that waits for what its declaration says. -/
  | declaration (name : Text)
  /-- A catalog that waits for the schema of a name. -/
  | catalog (before : Resolved) (name : Text) (after : List Text)

/-- What is to be done next. -/
inductive Control where
  /-- A shape is read. -/
  | shape (o : Outline)
  /-- A name is resolved. -/
  | name (n : Text)
  /-- The declaration of a name was read, and its schema is to be kept. -/
  | keep (n : Text) (s : Schema)
  /-- A schema is given to what waits for it. -/
  | give (s : Schema)
  /-- What waits is left without a result. -/
  | fail (cause : DeclarationFault)
  /-- All names are resolved. -/
  | done (rs : Resolved)

/-- A state of resolution (`_Resolver`). -/
structure State where
  control : Control
  /-- What waits, the innermost first. -/
  frames : List Frame
  /-- The names whose declarations are being read, the oldest first. -/
  inProgress : List Text
  known : Resolved
  /-- The names whose declarations were begun to be read, in that order. -/
  begun : List Text

namespace State

def go (σ : State) (c : Control) : State := { σ with control := c }

def push (σ : State) (f : Frame) (c : Control) : State :=
  { σ with control := c, frames := f :: σ.frames }

/-- The next member of a union, or the union. -/
def nextMember (σ : State) (before : List Schema) : List Outline → State
  | [] => σ.go (.give (.unionOf before))
  | o :: os => σ.push (.member before os) (.shape o)

/-- The next field of a record, or the record. -/
def nextField (σ : State) (before : List Field) : List FieldOutline → State
  | [] =>
    match Record.ofFields before with
    | .ok r => σ.go (.give (.record r))
    | .error cause => σ.go (.fail (.failure cause))
  | ⟨name, flags, o⟩ :: os => σ.push (.field before name flags os) (.shape o)

/-- The next name of a catalog, or the catalog. -/
def nextName (σ : State) (before : Resolved) : List Text → State
  | [] => σ.go (.done before)
  | n :: ns => σ.push (.catalog before n ns) (.name n)

/-- A shape is read (`parse_shape`). -/
def read (σ : State) : Outline → State
  | .leaf s => σ.go (.give s)
  | .reference n => σ.go (.name n)
  | .fault cause => σ.go (.fail cause)
  | .sequence e r => σ.push (.element r) (.shape e)
  | .union ms => σ.nextMember [] ms
  | .record fs => σ.nextField [] fs

/-- The declaration of a name is begun. -/
def begin (ds : Declarations) (σ : State) (n : Text) (d : Data) : State where
  control := .shape (Outline.ofData ds.declares [] n d)
  frames := .declaration n :: σ.frames
  inProgress := σ.inProgress ++ [n]
  known := σ.known
  begun := σ.begun ++ [n]

/-- A name is resolved: it may be known, undeclared or in progress, and else its declaration is
begun (`_Resolver.resolve`). -/
def enter (ds : Declarations) (σ : State) (n : Text) : State :=
  match σ.known.lookup n with
  | some s => σ.go (.give s)
  | none =>
    match ds.lookup n with
    | none => σ.go (.fail (.unknownReference n))
    | some d =>
      if n ∈ σ.inProgress then
        σ.go (.fail (.cyclicReference (σ.inProgress.dropWhile (· != n) ++ [n])))
      else σ.begin ds n d

/-- The schema of a name is kept, in place of what was known of the name before. -/
def keep (σ : State) (n : Text) (s : Schema) : State :=
  { σ with control := .give s, known := Data.insertBy (· == ·) σ.known n s }

/-- The innermost frame is left, with a result or without one. A name is then no longer in
progress. -/
def leave (σ : State) (f : Frame) (k : List Frame) : State :=
  { σ with
    frames := k
    inProgress := match f with
      | .declaration _ => σ.inProgress.dropLast
      | _ => σ.inProgress }

/-- What waited goes on with a schema. -/
def resume (σ : State) (s : Schema) : Frame → State
  | .element (.ok readonly) => σ.go (.give (.sequence s readonly))
  | .element (.error cause) => σ.go (.fail cause)
  | .member before after => σ.nextMember (before ++ [s]) after
  | .field before name flags after => σ.nextField (before ++ [⟨name, s, flags⟩]) after
  | .declaration n => σ.go (.keep n s)
  | .catalog before n after => σ.nextName (before ++ [(n, s)]) after

end State

/-- The next state, if there is one. -/
def step (ds : Declarations) (σ : State) : Option State :=
  match σ.control with
  | .shape o => some (σ.read o)
  | .name n => some (σ.enter ds n)
  | .keep n s => some (σ.keep n s)
  | .give s =>
    match σ.frames with
    | [] => none
    | f :: k => some ((σ.leave f k).resume s f)
  | .fail cause =>
    match σ.frames with
    | [] => none
    | f :: k => some ((σ.leave f k).go (.fail cause))
  | .done _ => none

/-- The state before anything is resolved. -/
def start (ds : Declarations) : State :=
  State.nextName ⟨.done [], [], [], [], []⟩ [] (ds.map Prod.fst)

/-- Whether a state is reached when declarations are resolved. -/
def Reached (ds : Declarations) (σ : State) : Prop :=
  StateTransition.Reaches (step ds) (start ds) σ

/-! ## Names -/

/-- The name whose declaration is read within a frame. -/
def Frame.opens : Frame → List Text
  | .declaration n => [n]
  | _ => []

/-- The name whose schema is about to be kept. -/
def Control.keeps : Control → List Text
  | .keep n _ => [n]
  | _ => []

/-- The names whose declarations are read within frames, the oldest first. -/
def opened : List Frame → List Text
  | [] => []
  | f :: k => opened k ++ f.opens

/-- Whether what waits is left without a result. -/
def Control.IsFailure : Control → Prop
  | .fail _ => True
  | _ => False

section

variable {ds : Declarations} {σ τ : State} {f : Frame} {k : List Frame} {n : Text}

theorem opened_cons_of_opens_eq_nil (h : f.opens = []) : opened (f :: k) = opened k := by
  rw [opened, h, List.append_nil]

/-! ## References -/

/-- The references of what is still to be read when a frame goes on, and the name that it opens. -/
def Frame.references : Frame → List Text
  | .element _ => []
  | .member _ after => Outline.allReferences after
  | .field _ _ _ after => FieldOutline.allReferences after
  | .declaration n => [n]
  | .catalog _ _ after => after

/-- The references of what is read next. -/
def Control.references : Control → List Text
  | .shape o => o.references
  | .name n => [n]
  | _ => []

/-- Whether a name is a reference of the declaration that is read within the frames, if there is
any. -/
def MayRefer (ds : Declarations) (k : List Frame) (n : Text) : Prop :=
  ∀ m, (opened k).getLast? = some m → ds.Refers m n

/-- Whether what is still to be read in a declaration are references of that declaration. -/
def TracedFrames (ds : Declarations) : List Frame → Prop
  | [] => True
  | f :: k => (∀ n ∈ f.references, MayRefer ds k n) ∧ TracedFrames ds k

/-- The same, with what is read next. -/
structure State.Traced (ds : Declarations) (σ : State) : Prop where
  frames : TracedFrames ds σ.frames
  control : ∀ n ∈ σ.control.references, MayRefer ds σ.frames n

theorem mayRefer_cons_of_opens_eq_nil (h : f.opens = []) :
    MayRefer ds (f :: k) n ↔ MayRefer ds k n := by
  rw [MayRefer, opened_cons_of_opens_eq_nil h, MayRefer]

theorem mayRefer_declaration {m : Text} (h : ds.Refers m n) :
    MayRefer ds (.declaration m :: k) n := by
  intro m' hm
  rw [opened, Frame.opens, List.getLast?_append, List.getLast?_singleton, Option.some_or] at hm
  exact Option.some.inj hm ▸ h

/-- The names that are read are a path of references. -/
theorem TracedFrames.isChain (h : TracedFrames ds k) : List.IsChain ds.Refers (opened k) := by
  induction k with
  | nil => exact .nil
  | cons f k ih =>
    obtain ⟨hf, hk⟩ := h
    cases f with
    | declaration n =>
      refine List.isChain_append.2 ⟨ih hk, List.isChain_singleton n, fun m hm n' hn' => ?_⟩
      obtain rfl : n = n' := by simpa [Frame.opens] using hn'
      exact hf n (List.mem_singleton_self n) m hm
    | _ =>
      rw [opened_cons_of_opens_eq_nil rfl]
      exact ih hk

theorem State.traced_go (h : TracedFrames ds σ.frames) {c : Control} (hc : c.references = []) :
    (σ.go c).Traced ds := by
  refine ⟨h, fun n hn => ?_⟩
  rw [State.go, hc] at hn
  cases hn

theorem State.traced_push (h : TracedFrames ds σ.frames) (hopens : f.opens = [])
    (hf : ∀ n ∈ f.references, MayRefer ds σ.frames n) {c : Control}
    (hc : ∀ n ∈ c.references, MayRefer ds σ.frames n) : (σ.push f c).Traced ds :=
  ⟨⟨hf, h⟩, fun n hn => (mayRefer_cons_of_opens_eq_nil hopens).2 (hc n hn)⟩

theorem State.traced_nextMember (h : TracedFrames ds σ.frames) (before : List Schema)
    {os : List Outline} (ho : ∀ n ∈ Outline.allReferences os, MayRefer ds σ.frames n) :
    (σ.nextMember before os).Traced ds := by
  cases os with
  | nil => exact traced_go h rfl
  | cons o os =>
    obtain ⟨ho, hos⟩ := List.forall_mem_append.1 ho
    rw [nextMember]
    refine traced_push h rfl ?_ ho
    exact hos

theorem State.traced_nextField (h : TracedFrames ds σ.frames) (before : List Field)
    {os : List FieldOutline} (ho : ∀ n ∈ FieldOutline.allReferences os, MayRefer ds σ.frames n) :
    (σ.nextField before os).Traced ds := by
  cases os with
  | nil =>
    rw [nextField]
    split <;> exact traced_go h rfl
  | cons o os =>
    obtain ⟨name, flags, o⟩ := o
    obtain ⟨ho, hos⟩ := List.forall_mem_append.1 ho
    rw [nextField]
    refine traced_push h rfl ?_ ho
    exact hos

theorem State.traced_nextName (h : TracedFrames ds σ.frames) (before : Resolved) {ns : List Text}
    (hn : ∀ n ∈ ns, MayRefer ds σ.frames n) : (σ.nextName before ns).Traced ds := by
  cases ns with
  | nil => exact traced_go h rfl
  | cons n ns =>
    obtain ⟨hn, hns⟩ := List.forall_mem_cons.1 hn
    rw [nextName]
    refine traced_push h rfl ?_ ?_
    · exact hns
    · simpa [Control.references] using hn

theorem State.traced_read (h : TracedFrames ds σ.frames) {o : Outline}
    (ho : ∀ n ∈ o.references, MayRefer ds σ.frames n) : (σ.read o).Traced ds := by
  cases o with
  | leaf s => exact traced_go h rfl
  | reference n => exact ⟨h, ho⟩
  | fault cause => exact traced_go h rfl
  | sequence e r =>
    rw [read]
    exact traced_push h rfl (List.forall_mem_nil _) ho
  | union ms => exact traced_nextMember h [] ho
  | record fs => exact traced_nextField h [] ho

theorem State.traced_enter (h : TracedFrames ds σ.frames) (hn : MayRefer ds σ.frames n) :
    (σ.enter ds n).Traced ds := by
  rw [enter]
  split
  · exact traced_go h rfl
  · split
    · exact traced_go h rfl
    · next d hd =>
      split
      · exact traced_go h rfl
      · refine ⟨⟨by simpa [Frame.references] using hn, h⟩, fun m hm => mayRefer_declaration ?_⟩
        exact ⟨_, by rw [Declarations.outline?, hd, Option.map_some], hm⟩

theorem State.traced_resume (h : TracedFrames ds σ.frames) (s : Schema)
    (hf : ∀ n ∈ f.references, MayRefer ds σ.frames n) : (σ.resume s f).Traced ds := by
  cases f with
  | element r => cases r <;> exact traced_go h rfl
  | member before after => exact traced_nextMember h _ hf
  | field before name flags after => exact traced_nextField h _ hf
  | declaration n => exact traced_go h rfl
  | catalog before n after => exact traced_nextName h _ hf

theorem traced_step (h : σ.Traced ds) (hs : step ds σ = some τ) : τ.Traced ds := by
  obtain ⟨hk, hc⟩ := h
  rw [step] at hs
  split at hs
  · next o ho =>
    cases hs
    exact State.traced_read hk (by rwa [ho] at hc)
  · next n hn =>
    cases hs
    exact State.traced_enter hk (hc n (by simp [hn, Control.references]))
  · next n s _ =>
    cases hs
    exact ⟨hk, List.forall_mem_nil _⟩
  · next s _ =>
    split at hs
    · cases hs
    · next f k hf =>
      cases hs
      rw [hf] at hk
      exact State.traced_resume hk.2 s hk.1
  · split at hs
    · cases hs
    · next f k hf =>
      cases hs
      rw [hf] at hk
      exact State.traced_go hk.2 rfl
  · cases hs

/-! ## What a step does to the names -/

/-- Nothing that is said of names changes. -/
structure Onward (σ τ : State) : Prop where
  inProgress : τ.inProgress = σ.inProgress
  known : τ.known = σ.known
  begun : τ.begun = σ.begun
  opened : opened τ.frames = opened σ.frames
  keeps : τ.control.keeps = []

/-- What a step does to the names. -/
inductive Moves (ds : Declarations) (σ τ : State) : Prop
  | onward (h : Onward σ τ) (hσ : σ.control.keeps = [])
  /-- The declaration of a name is begun. -/
  | begin {n : Text} {d : Data} (hc : σ.control = .name n) (hk : σ.known.lookup n = none)
      (hd : ds.lookup n = some d) (hn : n ∉ σ.inProgress) (hτ : τ = σ.begin ds n d)
  /-- The declaration of a name was read. -/
  | finish {n : Text} {s : Schema} {k : List Frame} (hc : σ.control = .give s)
      (hf : σ.frames = .declaration n :: k)
      (hτ : τ = (σ.leave (.declaration n) k).go (.keep n s))
  /-- The schema of a name is kept. -/
  | keep {n : Text} {s : Schema} (hc : σ.control = .keep n s) (hτ : τ = σ.keep n s)
  /-- The declaration of a name is left without a result. -/
  | abandon {n : Text} {cause : DeclarationFault} {k : List Frame} (hc : σ.control = .fail cause)
      (hf : σ.frames = .declaration n :: k)
      (hτ : τ = (σ.leave (.declaration n) k).go (.fail cause))

theorem Onward.trans {ρ : State} (h : Onward σ τ) (h' : Onward τ ρ) : Onward σ ρ where
  inProgress := h'.inProgress.trans h.inProgress
  known := h'.known.trans h.known
  begun := h'.begun.trans h.begun
  opened := h'.opened.trans h.opened
  keeps := h'.keeps

namespace State

theorem onward_go {c : Control} (hc : c.keeps = []) : Onward σ (σ.go c) :=
  ⟨rfl, rfl, rfl, rfl, hc⟩

theorem onward_push (hf : f.opens = []) {c : Control} (hc : c.keeps = []) :
    Onward σ (σ.push f c) :=
  ⟨rfl, rfl, rfl, opened_cons_of_opens_eq_nil hf, hc⟩

theorem onward_leave (hf : σ.frames = f :: k) (hopens : f.opens = []) (hc : σ.control.keeps = []) :
    Onward σ (σ.leave f k) := by
  refine ⟨?_, rfl, rfl, ?_, hc⟩
  · cases f with
    | declaration n => cases hopens
    | _ => rfl
  · rw [hf, opened_cons_of_opens_eq_nil hopens]
    rfl

theorem onward_nextMember (before : List Schema) (os : List Outline) :
    Onward σ (σ.nextMember before os) := by
  cases os with
  | nil => exact onward_go rfl
  | cons o os => exact onward_push rfl rfl

theorem onward_nextField (before : List Field) (os : List FieldOutline) :
    Onward σ (σ.nextField before os) := by
  cases os with
  | nil =>
    rw [nextField]
    split <;> exact onward_go rfl
  | cons o os =>
    obtain ⟨name, flags, o⟩ := o
    exact onward_push rfl rfl

theorem onward_nextName (before : Resolved) (ns : List Text) : Onward σ (σ.nextName before ns) := by
  cases ns with
  | nil => exact onward_go rfl
  | cons n ns => exact onward_push rfl rfl

theorem onward_read (o : Outline) : Onward σ (σ.read o) := by
  cases o with
  | sequence e r => exact onward_push rfl rfl
  | union ms => exact onward_nextMember [] ms
  | record fs => exact onward_nextField [] fs
  | _ => exact onward_go rfl

theorem onward_resume (s : Schema) (hf : f.opens = []) : Onward σ (σ.resume s f) := by
  cases f with
  | element r => cases r <;> exact onward_go rfl
  | member before after => exact onward_nextMember _ after
  | field before name flags after => exact onward_nextField _ after
  | declaration n => cases hf
  | catalog before n after => exact onward_nextName _ after

theorem moves_enter (hc : σ.control = .name n) : Moves ds σ (σ.enter ds n) := by
  have hσ : σ.control.keeps = [] := by rw [hc]; rfl
  rw [enter]
  split
  · exact .onward (onward_go rfl) hσ
  · next hk =>
    split
    · exact .onward (onward_go rfl) hσ
    · next d hd =>
      split
      · exact .onward (onward_go rfl) hσ
      · next hn => exact .begin hc hk hd hn rfl

end State

/-- A frame opens no name, or it is that of a declaration. -/
theorem Frame.opens_eq_nil_or (f : Frame) : f.opens = [] ∨ ∃ n, f = .declaration n := by
  cases f with
  | declaration n => exact .inr ⟨n, rfl⟩
  | _ => exact .inl rfl

theorem moves_of_step (hs : step ds σ = some τ) : Moves ds σ τ := by
  rw [step] at hs
  split at hs
  · next o hc =>
    cases hs
    exact .onward (State.onward_read o) (by rw [hc]; rfl)
  · next n hc =>
    cases hs
    exact State.moves_enter hc
  · next n s hc =>
    cases hs
    exact .keep hc rfl
  · next s hc =>
    have hσ : σ.control.keeps = [] := by rw [hc]; rfl
    split at hs
    · cases hs
    · next f k hf =>
      -- Frames that open no name are left and go on without touching names.
      cases hs
      obtain hopens | ⟨n, rfl⟩ := f.opens_eq_nil_or
      · exact .onward ((State.onward_leave hf hopens hσ).trans (State.onward_resume s hopens)) hσ
      · exact .finish hc hf rfl
  · next cause hc =>
    have hσ : σ.control.keeps = [] := by rw [hc]; rfl
    split at hs
    · cases hs
    · next f k hf =>
      cases hs
      obtain hopens | ⟨n, rfl⟩ := f.opens_eq_nil_or
      · exact .onward ((State.onward_leave hf hopens hσ).trans (State.onward_go rfl)) hσ
      · exact .abandon hc hf rfl
  · cases hs

/-- Once something failed, nothing else is done than to leave what waits. -/
theorem isFailure_of_step (hs : step ds σ = some τ) (h : σ.control.IsFailure) :
    τ.control.IsFailure := by
  rw [step] at hs
  cases hc : σ.control with
  | fail cause =>
    simp only [hc] at hs
    split at hs
    · cases hs
    · cases hs
      trivial
  | _ =>
    rw [hc] at h
    exact h.elim

/-! ## Where each name is -/

/-- The names that are kept, those whose declarations are being read, and the one whose schema is
about to be kept. -/
def State.held (σ : State) : List Text :=
  σ.known.map Prod.fst ++ (σ.inProgress ++ σ.control.keeps)

/-- What holds of every state that is reached. -/
structure Sound (ds : Declarations) (σ : State) : Prop where
  /-- The names in progress are those whose declarations are read within the frames. -/
  stack : σ.inProgress = opened σ.frames
  traced : σ.Traced ds
  declared : ∀ n ∈ σ.begun, ds.declares n = true
  once : σ.begun.Nodup
  /-- Each name that was begun is held or was abandoned, and the latter only after a failure. -/
  accounted : ∃ abandoned, (σ.held ++ abandoned).Perm σ.begun ∧
    (abandoned = [] ∨ σ.control.IsFailure)

namespace Sound

theorem nodup_held (h : Sound ds σ) : σ.held.Nodup := by
  obtain ⟨abandoned, hperm, -⟩ := h.accounted
  exact (List.nodup_append.1 (hperm.nodup_iff.2 h.once)).1

theorem mem_begun (h : Sound ds σ) (hn : n ∈ σ.held) : n ∈ σ.begun := by
  obtain ⟨abandoned, hperm, -⟩ := h.accounted
  exact hperm.subset (List.mem_append_left _ hn)

theorem perm_of_not_isFailure (h : Sound ds σ) (hc : ¬ σ.control.IsFailure) :
    σ.held.Perm σ.begun := by
  obtain ⟨abandoned, hperm, rfl | hf⟩ := h.accounted
  · rwa [List.append_nil] at hperm
  · exact absurd hf hc

/-- No name that is in progress or about to be kept is known. -/
theorem not_mem_known (h : Sound ds σ) (hn : n ∈ σ.inProgress ++ σ.control.keeps) :
    n ∉ σ.known.map Prod.fst :=
  fun hk => (List.nodup_append.1 h.nodup_held).2.2 n hk n hn rfl

theorem keep_known (h : Sound ds σ) {s : Schema} (hc : σ.control = .keep n s) :
    (σ.keep n s).known = σ.known ++ [(n, s)] := by
  refine Data.insertBy_of_new (fun p hp => ?_) s
  have hn : n ∉ σ.known.map Prod.fst := h.not_mem_known (by simp [hc, Control.keeps])
  exact beq_eq_false_iff_ne.2 fun he => hn (he ▸ List.mem_map_of_mem hp)

theorem onward (h : Sound ds σ) (hon : Onward σ τ) (hσ : σ.control.keeps = [])
    (ht : τ.Traced ds) (hf : σ.control.IsFailure → τ.control.IsFailure) : Sound ds τ where
  stack := by rw [hon.inProgress, hon.opened, h.stack]
  traced := ht
  declared := by rw [hon.begun]; exact h.declared
  once := by rw [hon.begun]; exact h.once
  accounted := by
    obtain ⟨abandoned, hperm, ha⟩ := h.accounted
    refine ⟨abandoned, ?_, ha.imp_right hf⟩
    rwa [State.held, hon.known, hon.inProgress, hon.keeps, hon.begun, ← hσ]

theorem begin (h : Sound ds σ) {d : Data} (hc : σ.control = .name n)
    (hk : σ.known.lookup n = none) (hd : ds.lookup n = some d) (hn : n ∉ σ.inProgress)
    (ht : (σ.begin ds n d).Traced ds) : Sound ds (σ.begin ds n d) := by
  have hperm : σ.held.Perm σ.begun := h.perm_of_not_isFailure (by rw [hc]; exact id)
  have hheld : σ.held = σ.known.map Prod.fst ++ σ.inProgress := by
    simp [State.held, hc, Control.keeps]
  -- Before a failure each name that was begun is held, and this one is neither known nor in
  -- progress.
  have hnew : n ∉ σ.begun := by
    rw [← hperm.mem_iff, hheld, List.mem_append, not_or]
    refine ⟨fun hmem => ?_, hn⟩
    obtain ⟨p, hp, rfl⟩ := List.mem_map.1 hmem
    simpa using List.lookup_eq_none_iff.1 hk p hp
  refine ⟨?_, ht, ?_, ?_, [], ?_, .inl rfl⟩
  · exact congrArg (· ++ [n]) h.stack
  · refine List.forall_mem_append.2 ⟨h.declared, ?_⟩
    rw [List.forall_mem_singleton, Declarations.declares, hd]
    rfl
  · exact List.nodup_append.2 ⟨h.once, List.nodup_singleton n, fun m hm m' hm' => by
      rw [List.mem_singleton.1 hm']
      rintro rfl
      exact hnew hm⟩
  · have hgrown : (σ.begin ds n d).held ++ [] = σ.held ++ [n] := by
      simp [State.held, State.begin, hc, Control.keeps]
    rw [hgrown]
    exact hperm.append_right [n]

/-- The name of the innermost declaration is the last that is in progress. -/
theorem inProgress_eq (h : Sound ds σ) (hf : σ.frames = .declaration n :: k) :
    σ.inProgress = opened k ++ [n] := by
  rw [h.stack, hf, opened, Frame.opens]

theorem inProgress_leave (h : Sound ds σ) (hf : σ.frames = .declaration n :: k) :
    (σ.leave (.declaration n) k).inProgress = opened k := by
  rw [State.leave, h.inProgress_eq hf, List.dropLast_concat]

theorem finish (h : Sound ds σ) {s : Schema} (hc : σ.control = .give s)
    (hf : σ.frames = .declaration n :: k)
    (ht : ((σ.leave (.declaration n) k).go (.keep n s)).Traced ds) :
    Sound ds ((σ.leave (.declaration n) k).go (.keep n s)) := by
  have hperm : σ.held.Perm σ.begun := h.perm_of_not_isFailure (by rw [hc]; exact id)
  refine ⟨h.inProgress_leave hf, ht, h.declared, h.once, [], ?_, .inl rfl⟩
  have hsame : ((σ.leave (.declaration n) k).go (.keep n s)).held = σ.held := by
    have hleave : ((σ.leave (.declaration n) k).go (.keep n s)).inProgress = opened k :=
      h.inProgress_leave hf
    rw [State.held, hleave, State.held, h.inProgress_eq hf, hc]
    simp [State.go, State.leave, Control.keeps]
  rw [List.append_nil, hsame]
  exact hperm

theorem keep (h : Sound ds σ) {s : Schema} (hc : σ.control = .keep n s)
    (ht : (σ.keep n s).Traced ds) : Sound ds (σ.keep n s) := by
  have hperm : σ.held.Perm σ.begun := h.perm_of_not_isFailure (by rw [hc]; exact id)
  refine ⟨h.stack, ht, h.declared, h.once, [], ?_, .inl rfl⟩
  have hmoved : (σ.keep n s).held = σ.known.map Prod.fst ++ ([n] ++ σ.inProgress) := by
    rw [State.held, h.keep_known hc]
    simp [State.keep, Control.keeps]
  have hheld : σ.held = σ.known.map Prod.fst ++ (σ.inProgress ++ [n]) := by
    simp [State.held, hc, Control.keeps]
  rw [List.append_nil, hmoved]
  exact ((List.perm_append_comm.append_left _).trans (.of_eq hheld.symm)).trans hperm

theorem abandon (h : Sound ds σ) {cause : DeclarationFault} (hc : σ.control = .fail cause)
    (hf : σ.frames = .declaration n :: k)
    (ht : ((σ.leave (.declaration n) k).go (.fail cause)).Traced ds) :
    Sound ds ((σ.leave (.declaration n) k).go (.fail cause)) := by
  obtain ⟨abandoned, hperm, -⟩ := h.accounted
  refine ⟨h.inProgress_leave hf, ht, h.declared, h.once, n :: abandoned, ?_, .inr trivial⟩
  have hsame : ((σ.leave (.declaration n) k).go (.fail cause)).held ++ n :: abandoned =
      σ.held ++ abandoned := by
    have hleave : ((σ.leave (.declaration n) k).go (.fail cause)).inProgress = opened k :=
      h.inProgress_leave hf
    rw [State.held, hleave, State.held, h.inProgress_eq hf, hc]
    simp [State.go, State.leave, Control.keeps]
  rw [hsame]
  exact hperm

end Sound

/-- What a step keeps. -/
theorem sound_step (h : Sound ds σ) (hs : step ds σ = some τ) : Sound ds τ := by
  have ht := traced_step h.traced hs
  cases moves_of_step hs with
  | onward hon hσ => exact h.onward hon hσ ht (isFailure_of_step hs)
  | begin hc hk hd hn hτ =>
    subst hτ
    exact h.begin hc hk hd hn ht
  | finish hc hf hτ =>
    subst hτ
    exact h.finish hc hf ht
  | keep hc hτ =>
    subst hτ
    exact h.keep hc ht
  | abandon hc hf hτ =>
    subst hτ
    exact h.abandon hc hf ht

theorem sound_start (ds : Declarations) : Sound ds (start ds) := by
  have hempty : Sound ds ⟨.done [], [], [], [], []⟩ :=
    { stack := rfl
      traced := ⟨trivial, List.forall_mem_nil _⟩
      declared := List.forall_mem_nil _
      once := .nil
      accounted := ⟨[], .refl _, .inl rfl⟩ }
  have htraced : (start ds).Traced ds :=
    State.traced_nextName hempty.traced.frames [] fun n _ m hm => by cases hm
  exact hempty.onward (State.onward_nextName [] _) rfl htraced False.elim

/-- What holds at first holds of every state that is reached. -/
theorem sound_of_reaches (h : Sound ds σ) (hr : StateTransition.Reaches (step ds) σ τ) :
    Sound ds τ := by
  induction hr with
  | refl => exact h
  | tail _ hs ih => exact sound_step ih hs

theorem Reached.sound (h : Reached ds σ) : Sound ds σ := sound_of_reaches (sound_start ds) h

/-! ## What is known stays -/

theorem prefix_of_step (h : Sound ds σ) (hs : step ds σ = some τ) : σ.known <+: τ.known := by
  cases moves_of_step hs with
  | onward hon _ =>
    rw [hon.known]
  | keep hc hτ =>
    rw [hτ, h.keep_known hc]
    exact List.prefix_append ..
  | begin _ _ _ _ hτ | finish _ _ hτ | abandon _ _ hτ =>
    subst hτ
    exact List.prefix_rfl

theorem prefix_of_reaches (h : Sound ds σ) (hr : StateTransition.Reaches (step ds) σ τ) :
    σ.known <+: τ.known := by
  induction hr with
  | refl => exact List.prefix_rfl
  | tail hr hs ih => exact ih.trans (prefix_of_step (sound_of_reaches h hr) hs)

/-- What is known of a name is never known otherwise. -/
theorem lookup_of_reaches (h : Sound ds σ) (hr : StateTransition.Reaches (step ds) σ τ)
    {s : Schema} (hn : σ.known.lookup n = some s) : τ.known.lookup n = some s := by
  obtain ⟨new, hnew⟩ := prefix_of_reaches h hr
  rw [← hnew, List.lookup_append, hn, Option.some_or]

end

end ShapeAlgebra.Resolver
