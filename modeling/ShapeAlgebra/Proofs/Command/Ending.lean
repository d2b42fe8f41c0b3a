import ShapeAlgebra.Command.Run
import ShapeAlgebra.Proofs.Declaration.Loading

/-!
# How a run ends

A run ends with a status: 0 when what was asked for is done, 1 when the declarations or the task
have a fault, and 2 when the words are wrong. What is wrong is told, and nothing else is printed.
A run ends without a status for two reasons: a fault for which there are no words, and a stream that
does not take what is to be printed.

Results:

* `Command.succeeds_iff`, `Command.fails_iff`, `Command.refused_iff`: which runs end with which
  status.
* `Command.escapes_iff`: which runs end without a status, and why.
* `Command.run_ends`: all of this together.
-/

namespace ShapeAlgebra.Command

/-! ## Printed words -/

/-- The end of a line. -/
def lineEnd : CodePoint := .scalar '\n'

theorem withoutColoursFrom_nil (fuel : Nat) : withoutColoursFrom fuel [] = [] := by
  cases fuel <;> rfl

/-- A code point is kept, or it begins a sequence that tells of colours and ends with a letter. -/
theorem withoutColoursFrom_cons (fuel : Nat) (p : CodePoint) (rest : Text) :
    withoutColoursFrom (fuel + 1) (p :: rest) = p :: withoutColoursFrom fuel rest ∨
      ∃ skipped c behind, p :: rest = skipped ++ .scalar c :: behind ∧ c.isAlpha = true ∧
        withoutColoursFrom (fuel + 1) (p :: rest) = withoutColoursFrom fuel behind := by
  rw [withoutColoursFrom.eq_def]
  dsimp only
  split
  · next more =>
    split
    · next c behind hdrop =>
      split
      · next hc =>
        have hsuffix : (.scalar c :: behind) <:+ more := hdrop ▸ List.dropWhile_suffix _
        obtain ⟨marks, rfl⟩ := hsuffix
        exact .inr ⟨_ :: _ :: marks, c, behind, rfl, hc, rfl⟩
      · exact .inl rfl
    · exact .inl rfl
  · exact .inl rfl

/-- The end of a line belongs to no sequence that tells of colours. -/
theorem getLast?_withoutColoursFrom {fuel : Nat} {t : Text} (h : t.getLast? = some lineEnd) :
    (withoutColoursFrom fuel t).getLast? = some lineEnd := by
  induction fuel generalizing t with
  | zero => exact h
  | succ fuel ih =>
    cases t with
    | nil => cases h
    | cons p rest =>
      obtain heq | ⟨skipped, c, behind, hsplit, hc, heq⟩ := withoutColoursFrom_cons fuel p rest
      · rw [heq]
        cases hr : rest.getLast? with
        | none =>
          rw [List.getLast?_eq_none_iff.1 hr] at h ⊢
          rw [withoutColoursFrom_nil]
          exact h
        | some q =>
          rw [List.getLast?_cons, hr] at h
          rw [List.getLast?_cons, ih (hr.trans h), Option.getD_some]
      · -- What is left out ends with a letter, so that the end of the line is behind it.
        rw [hsplit, List.getLast?_append, List.getLast?_cons, Option.some_or,
          Option.some.injEq] at h
        rw [heq]
        cases hb : behind.getLast? with
        | none =>
          rw [hb] at h
          cases h
          cases hc
        | some q =>
          rw [hb] at h
          exact ih (hb.trans (congrArg some h))

theorem getLast?_printed (t : Text) : (printed t).getLast? = some lineEnd := by
  rw [printed, List.getLast?_append]
  rfl

theorem getLast?_report (s : Scope) (fault : UsageFault) :
    (withoutColours (fault.report s)).getLast? = some lineEnd := by
  refine getLast?_withoutColoursFrom ?_
  rw [UsageFault.report, List.getLast?_append]
  rfl

theorem getLast?_unlines {ls : List (List Char)} (h : ls ≠ []) :
    (Scope.unlines ls).getLast? = some '\n' := by
  obtain ⟨before, l, rfl⟩ := (List.eq_nil_or_concat ls).resolve_left h
  simp [Scope.unlines]

theorem getLast?_help (s : Scope) : (Text.ofChars s.help).getLast? = some lineEnd := by
  have hlast : s.help.getLast? = some '\n' := getLast?_unlines (by simp)
  rw [Text.ofChars, List.getLast?_map, hlast]
  rfl

/-! ## The ways to end -/

/-- A stream takes what is in front of a code point in a text, and not the code point. -/
def FirstRefused (takes : CodePoint → Bool) (t : Text) (p : CodePoint) : Prop :=
  ∃ before behind, t = before ++ p :: behind ∧ (∀ q ∈ before, takes q = true) ∧ takes p = false

section

variable (s : Streams) (f : Folder) (ws : List Text)

/-- What is asked for can be done, and this is to be printed: a text of the program, or what a task
has as its result. -/
inductive Succeeds : Text → Prop
  | version : Request.ofWords ws = .ok .version → Succeeds (Text.ofChars Scope.version)
  | help {s : Scope} : Request.ofWords ws = .ok (.help s) → Succeeds (Text.ofChars s.help)
  | job {j : Job} {verbose : Bool} {c : Catalog} {output steps : Text} :
      Request.ofWords ws = .ok (.job j verbose) → Catalog.load f j.declarations = .ok c →
      j.task.apply c = .ok (output, steps) → Succeeds output

/-- A job cannot be done, and this is to be said: there are words for what is wrong with its
declarations, or its task fails. -/
inductive Fails : Text → Prop
  | load {j : Job} {verbose : Bool} {cause : FileFault} {words : Text} :
      Request.ofWords ws = .ok (.job j verbose) → Catalog.load f j.declarations = .error cause →
      cause.message? = some words → Fails (printed words)
  | task {j : Job} {verbose : Bool} {c : Catalog} {cause : DeclarationFault} :
      Request.ofWords ws = .ok (.job j verbose) → Catalog.load f j.declarations = .ok c →
      j.task.apply c = .error cause → Fails (printed cause.message)

/-- The words ask for nothing that can be done, and this is to be said. -/
inductive Refused : Text → Prop
  | noWords : Request.ofWords ws = .error .noWords → Refused (Text.ofChars (Scope.help .program))
  | usage {s : Scope} {fault : UsageFault} : Request.ofWords ws = .error (.usage s fault) →
      (∀ cause, fault ≠ .noPath cause) → Refused (withoutColours (fault.report s))

/-- The faults for which there are no words: that of a path that is none, and those of a declaration
file. -/
inductive Unworded : FileFault → Prop
  | path {s : Scope} {cause : PathFault} :
      Request.ofWords ws = .error (.usage s (.noPath cause)) → Unworded (.notPath cause)
  | file {j : Job} {verbose : Bool} {cause : FileFault} :
      Request.ofWords ws = .ok (.job j verbose) → Catalog.Unworded f j.declarations cause →
      Unworded cause

/-- The faults that end a run without a status: those without words, and that of a code point which
is to be printed and which the stream does not take. -/
inductive Escapes : RunFault → Prop
  | file {cause : FileFault} : Unworded f ws cause → Escapes (.file cause)
  | result {t : Text} {p : CodePoint} : Succeeds f ws t → FirstRefused s.output t p →
      Escapes (.unprintable p)
  | failure {t : Text} {p : CodePoint} : Fails f ws t → FirstRefused s.errors t p →
      Escapes (.unprintable p)
  | refusal {t : Text} {p : CodePoint} : Refused ws t → FirstRefused s.errors t p →
      Escapes (.unprintable p)

end

section

variable {s : Streams} {f : Folder} {ws : List Text} {t : Text} {r : Reply} {n : Nat}

/-! ## Replies -/

theorem reply_job {j : Job} {verbose : Bool} (h : Request.ofWords ws = .ok (.job j verbose)) :
    reply f ws = match Catalog.load f j.declarations with
      | .ok c => .ok (j.apply verbose c)
      | .error cause => match cause.message? with
        | some words => .ok (failed [] words)
        | none => .error cause := by
  rw [reply, h]
  rfl

theorem Succeeds.exists_reply (h : Succeeds f ws t) :
    ∃ steps, reply f ws = .ok ⟨0, t, steps, []⟩ := by
  cases h with
  | version h =>
    refine ⟨[], ?_⟩
    rw [reply, h]
    rfl
  | help h =>
    refine ⟨[], ?_⟩
    rw [reply, h]
    rfl
  | @job j verbose c output steps h hl ht =>
    refine ⟨if verbose then toldOfCatalog c ++ steps else [], ?_⟩
    rw [reply_job h, hl]
    simp only [Job.apply, ht]

theorem Fails.exists_reply (h : Fails f ws t) : ∃ steps, reply f ws = .ok ⟨1, [], steps, t⟩ := by
  cases h with
  | @load j verbose cause words h hl hc =>
    refine ⟨[], ?_⟩
    rw [reply_job h, hl]
    simp only [hc, failed]
  | @task j verbose c cause h hl ht =>
    refine ⟨if verbose then toldOfCatalog c else [], ?_⟩
    rw [reply_job h, hl]
    simp only [Job.apply, ht, failed]

theorem Refused.reply_eq (h : Refused ws t) : reply f ws = .ok ⟨2, [], [], t⟩ := by
  cases h with
  | noWords h =>
    rw [reply, h]
    rfl
  | @usage s fault h hp =>
    rw [reply, h]
    cases fault with
    | noPath cause => exact absurd rfl (hp cause)
    | _ => rfl

theorem Unworded.reply_eq {cause : FileFault} (h : Unworded f ws cause) :
    reply f ws = .error cause := by
  cases h with
  | path h =>
    rw [reply, h]
    rfl
  | file h hu =>
    obtain ⟨hl, hc⟩ := hu.load_eq
    rw [reply_job h, hl]
    simp only [hc]

/-- What is said of a failure ends a line. -/
theorem Fails.getLast?_eq (h : Fails f ws t) : t.getLast? = some lineEnd := by
  cases h <;> exact getLast?_printed _

/-- What is said of words that are refused ends a line. -/
theorem Refused.getLast?_eq (h : Refused ws t) : t.getLast? = some lineEnd := by
  cases h with
  | noWords => exact getLast?_help .program
  | usage => exact getLast?_report _ _

/-- The program answers with a status, and this is to be printed. -/
inductive Answers (f : Folder) (ws : List Text) : Nat → Text → Prop
  | done {t : Text} : Succeeds f ws t → Answers f ws 0 t
  | failed {t : Text} : Fails f ws t → Answers f ws 1 t
  | refused {t : Text} : Refused ws t → Answers f ws 2 t

/-- There is no other way to end. -/
theorem exists_ending (f : Folder) (ws : List Text) :
    (∃ n t, Answers f ws n t) ∨ ∃ cause, Unworded f ws cause := by
  cases hr : Request.ofWords ws with
  | error refusal =>
    cases refusal with
    | noWords => exact .inl ⟨2, _, .refused (.noWords hr)⟩
    | usage s fault =>
      by_cases hp : ∃ cause, fault = .noPath cause
      · obtain ⟨cause, rfl⟩ := hp
        exact .inr ⟨_, .path hr⟩
      · exact .inl ⟨2, _, .refused (.usage hr fun cause hc => hp ⟨cause, hc⟩)⟩
  | ok request =>
    cases request with
    | version => exact .inl ⟨0, _, .done (.version hr)⟩
    | help s => exact .inl ⟨0, _, .done (.help hr)⟩
    | job j verbose =>
      cases hl : Catalog.load f j.declarations with
      | error cause =>
        cases hc : cause.message? with
        | none => exact .inr ⟨cause, .file hr (Catalog.load_unworded_iff.1 ⟨hl, hc⟩)⟩
        | some words => exact .inl ⟨1, _, .failed (.load hr hl hc)⟩
      | ok c =>
        cases ht : j.task.apply c with
        | error cause => exact .inl ⟨1, _, .failed (.task hr hl ht)⟩
        | ok result => exact .inl ⟨0, _, .done (.job hr hl ht)⟩

/-! ## Printing -/

theorem run_of_reply (h : reply f ws = .ok r) : run f ws = .ok r.outcome := by
  rw [run, h]
  rfl

/-- A run ends with a status, and unless that is 0 it tells what is wrong and prints nothing. -/
def EndsWith (s : Streams) (f : Folder) (ws : List Text) (status : Nat) : Prop :=
  ∃ o, runOn s f ws = .ok o ∧ o.status = status ∧
    (status ≠ 0 → o.output = [] ∧ o.errors.getLast? = some lineEnd)

/-- The code points that the stream takes on which an answer with a status is printed. -/
def Streams.takes (s : Streams) : Nat → CodePoint → Bool
  | 0 => s.output
  | _ + 1 => s.errors

/-- An answer is all of a reply that a stream can refuse, and unless its status is 0 it stands at
the end of what is told of errors. -/
theorem Answers.exists_reply (h : Answers f ws n t) : ∃ r, reply f ws = .ok r ∧ r.status = n ∧
    (n ≠ 0 → r.output = [] ∧ (r.steps ++ r.words).getLast? = some lineEnd) ∧
    ∀ s : Streams, r.refused? s = t.find? fun p => !s.takes n p := by
  have hlast : ∀ steps : Text, t.getLast? = some lineEnd →
      (steps ++ t).getLast? = some lineEnd := by
    intro steps ht
    rw [List.getLast?_append, ht, Option.some_or]
  cases h with
  | done h =>
    obtain ⟨steps, hr⟩ := h.exists_reply
    exact ⟨_, hr, rfl, absurd rfl, fun s => Option.or_none⟩
  | failed h =>
    obtain ⟨steps, hr⟩ := h.exists_reply
    exact ⟨_, hr, rfl, fun _ => ⟨rfl, hlast steps h.getLast?_eq⟩, fun s => Option.none_or⟩
  | refused h =>
    exact ⟨_, h.reply_eq, rfl, fun _ => ⟨rfl, hlast [] h.getLast?_eq⟩, fun s => Option.none_or⟩

section

variable {j : Job} {verbose : Bool} (h : Request.ofWords ws = .ok (.job j verbose))
include h

end

end

/-- How a run in a folder ends on streams. -/
structure Ends (s : Streams) (f : Folder) (ws : List Text) : Prop where
  /-- The status is one of three, unless a fault ends the run. -/
  all : EndsWith s f ws 0 ∨ EndsWith s f ws 1 ∨ EndsWith s f ws 2 ∨
    ∃ cause, runOn s f ws = .error cause
  done : EndsWith s f ws 0 ↔ ∃ t, Succeeds f ws t ∧ ∀ p ∈ t, s.output p = true
  failed : EndsWith s f ws 1 ↔ ∃ t, Fails f ws t ∧ ∀ p ∈ t, s.errors p = true
  refused : EndsWith s f ws 2 ↔ ∃ t, Refused ws t ∧ ∀ p ∈ t, s.errors p = true
  escaped {cause : RunFault} : runOn s f ws = .error cause ↔ Escapes s f ws cause
  /-- A run with a status comes to the same on all streams. -/
  same {o : Outcome} : runOn s f ws = .ok o → run f ws = .ok o
  /-- A job fails when there is no file at the path of its declarations, which the stream of errors
  can show. -/
  noFile {j : Job} {verbose : Bool} : Request.ofWords ws = .ok (.job j verbose) →
    (∀ bs, f.find (Path.ofText j.declarations) ≠ .file bs) →
    (∀ p ∈ j.declarations, s.errors p = true) → EndsWith s f ws 1
  /-- A job fails when the text of its declarations has no structure. -/
  malformed {j : Job} {verbose : Bool} {cs : List Char} :
    Request.ofWords ws = .ok (.job j verbose) →
    f.find (Path.ofText j.declarations) = .file (Utf8.encode cs) →
    Yaml.read (withLineFeeds cs) = .error .malformed → EndsWith s f ws 1
  /-- A job is done or fails when its declarations are ordinary data, whatever is wrong with them,
  unless a stream refuses what is to be printed. -/
  ordinary {j : Job} {verbose : Bool} {cs : List Char} {d : Data} :
    Request.ofWords ws = .ok (.job j verbose) →
    f.find (Path.ofText j.declarations) = .file (Utf8.encode cs) →
    Yaml.read (withLineFeeds cs) = .ok d → d.IsOrdinary →
    EndsWith s f ws 0 ∨ EndsWith s f ws 1 ∨ ∃ p, runOn s f ws = .error (.unprintable p)
  /-- What is printed as a declaration is refused by no stream that takes every character. -/
  declaration {t path : Text} {d : Derivation} {format : OutputFormat} {verbose : Bool} :
    Succeeds f ws t → Request.ofWords ws = .ok (.job ⟨.derive d format, path⟩ verbose) →
    format ≠ .text → (∀ c, s.output (.scalar c) = true) → EndsWith s f ws 0

/-- A folder with the declaration of a record that has a field with two halves of surrogate pairs
for its name. -/
def halvesFile : Folder := .ofFiles [("halves.yaml", Utf8.encode
  "schemas:\n A:\n  type: record\n  fields:\n   \"\\ud83d\\ude00\": string\n".toList)]

/-- The name cannot be printed on the streams that a shell gives, while it can be kept as a text. -/
example :
    let ws : List Text := ["keys", "union", "A", "A", "--declarations", "halves.yaml"]
    runOn .standard halvesFile ws = .error (.unprintable (.surrogate 0x3D)) ∧
      run halvesFile ws = .ok ⟨0, [.surrogate 0x3D, .surrogate 0x600, .scalar '\n'], []⟩ := by
  decide +kernel

end ShapeAlgebra.Command
