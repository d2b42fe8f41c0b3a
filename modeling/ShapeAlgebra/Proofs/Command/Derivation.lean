import ShapeAlgebra.Proofs.Command.Ending
import ShapeAlgebra.Proofs.Command.Job

/-!
# What commands derive

A command line is done completely or not at all: it prints what its command derives, or nothing. The
names and kinds that its options give can be given in any order and any number of times.

Results:

* `Command.Derives.exists_job`, `Command.exists_derives`: the jobs of a command are what it derives.
* `Command.run_eq_of_alikeFor`: words that give the same give the same run.
* `Command.run_derives`: what a run prints, and when it prints nothing.
-/

namespace ShapeAlgebra.Command

/-! ## Runs -/

/-- The words of a command line lead to a command and give no option of the program. -/
def Leads (ws : List Text) (v : Verb) (more : List Text) : Prop :=
  ∃ w, sortWords Scope.program.options false ws = .ok ⟨[], w :: more⟩ ∧ choice? verbs w = some v

/-- The help text of a command is not asked for. -/
def AsksNoHelp (v : Verb) (ws : List Text) : Prop :=
  ∀ s, sortWords v.options true ws = .ok s → ∀ g ∈ s.given, g.1 ≠ .help

/-- The texts that a command derives from the declarations in a folder with the words behind it. -/
def Derives (f : Folder) (v : Verb) (ws ts : List Text) : Prop :=
  ∃ s o path c, sortWords v.options true ws = .ok s ∧ Options.ofGiven s.given = .ok o ∧
    o.declarations = some path ∧ Catalog.load f path = .ok c ∧ Derived c o v s.arguments ts

/-- Words behind a command that give the same arguments and options, but for the order and
repetition of names and kinds. -/
def AlikeFor (v : Verb) (ws ws' : List Text) : Prop :=
  ∃ s s', sortWords v.options true ws = .ok s ∧ sortWords v.options true ws' = .ok s' ∧
    s.arguments = s'.arguments ∧ Given.Alike s.given s'.given

/-- The job of a command with its words, sorted. -/
def Sorted.job (v : Verb) (s : Sorted) : Except UsageFault Job := do
  let o ← Options.ofGiven s.given
  Job.ofVerb v o s.arguments

/-- A command is the first word of a command line that gives no options before it. -/
theorem leads_word (v : Verb) (more : List Text) : Leads (.ofString v.word :: more) v more := by
  have hsort : ∀ w : Text, w.head? ≠ some hyphen →
      sortWords Scope.program.options false (w :: more) = .ok ⟨[], w :: more⟩ := by
    intro w hw
    have hend : w ≠ [hyphen, hyphen] := fun h => hw (h ▸ rfl)
    simp [sortWords, isOptionWord, hw, hend]
  refine ⟨_, hsort _ ?_, ?_⟩ <;> cases v <;> decide

section

variable {f : Folder} {ws ws' more more' ts : List Text} {v : Verb}

theorem Leads.ofWords_eq (h : Leads ws v more) :
    Request.ofWords ws = (Request.ofVerb v false more).mapError (Refusal.usage (.verb v)) := by
  obtain ⟨w, hs, hw⟩ := h
  have hne : ws.isEmpty = false := by
    cases ws with
    | nil => cases hs
    | cons w ws => rfl
  rw [Request.ofWords, hne, hs]
  simp [Request.ofProgram?, Request.ofCommand, hw]

/-- Unless the help text is asked for, a command line asks for the job of its command. -/
theorem Leads.ofWords_of_sorted (h : Leads ws v more) {s : Sorted}
    (hs : sortWords v.options true more = .ok s) (hhelp : ∀ g ∈ s.given, g.1 ≠ .help) :
    Request.ofWords ws = match s.job v with
      | .ok j => .ok (.job j false)
      | .error fault => .error (.usage (.verb v) fault) := by
  have hany : (s.given.any fun g => g.1 == .help) = false := by
    rw [List.any_eq_false]
    intro g hg
    rw [beq_iff_eq]
    exact hhelp g hg
  rw [h.ofWords_eq, Request.ofVerb, hs, Sorted.job]
  simp only [bind, Except.bind, hany, Bool.false_eq_true, if_false]
  cases Options.ofGiven s.given with
  | error fault => rfl
  | ok o =>
    dsimp only
    cases Job.ofVerb v o s.arguments <;> rfl

/-- What a command derives is the result of a job. -/
theorem Derives.exists_job (h : Derives f v more ts) (hl : Leads ws v more)
    (hh : AsksNoHelp v more) : ∃ j c steps, Request.ofWords ws = .ok (.job j false) ∧
      Catalog.load f j.declarations = .ok c ∧ j.task.apply c = .ok (printedLines ts, steps) := by
  obtain ⟨s, o, path, c, hs, ho, hp, hc, hd⟩ := h
  obtain ⟨j, steps, hj, rfl, ht⟩ := Job.apply_of_derived hp hd
  have hjob : s.job v = .ok j := by
    rw [Sorted.job, ho]
    exact hj
  exact ⟨j, c, steps, by rw [hl.ofWords_of_sorted hs (hh s hs), hjob], hc, ht⟩

/-- Without a call for help nothing but a job is asked for, and its result is what the command
derives. -/
theorem exists_derives (hl : Leads ws v more) (hh : AsksNoHelp v more) {r : Request}
    (hr : Request.ofWords ws = .ok r) : ∃ j, r = .job j false ∧
      ∀ c result, Catalog.load f j.declarations = .ok c → j.task.apply c = .ok result →
        ∃ ts, Derives f v more ts ∧ result.1 = printedLines ts := by
  cases hs : sortWords v.options true more with
  | error fault =>
    rw [hl.ofWords_eq, Request.ofVerb, hs] at hr
    cases hr
  | ok s =>
    rw [hl.ofWords_of_sorted hs (hh s hs)] at hr
    cases hj : s.job v with
    | error fault => rw [hj] at hr; cases hr
    | ok j =>
      rw [hj] at hr
      obtain ⟨o, ho, hjob⟩ := exists_of_bind_eq_ok hj
      refine ⟨j, (Except.ok.inj hr).symm, fun c result hc ht => ?_⟩
      obtain ⟨hp, ts, hd, hts⟩ := Job.derived_of_apply hjob ht
      exact ⟨ts, ⟨s, o, j.declarations, c, hs, ho, hp, hc, hd⟩, hts⟩

/-- Words that give the same, but for the order and repetition of names and kinds, give the same
run. -/
theorem run_eq_of_alikeFor (hl : Leads ws v more) (hl' : Leads ws' v more')
    (hh : AsksNoHelp v more) (h : AlikeFor v more more') : run f ws = run f ws' := by
  obtain ⟨s, s', hs, hs', harguments, hgiven⟩ := h
  have hhelp' : ∀ g ∈ s'.given, g.1 ≠ .help := by
    have hfalse : (s.given.any fun g => g.1 == .help) = false := by
      rw [List.any_eq_false]
      exact fun g hg => mt beq_iff_eq.1 (hh s hs g hg)
    rw [hgiven.any_eq rfl, List.any_eq_false] at hfalse
    exact fun g hg hc => hfalse g hg (beq_iff_eq.2 hc)
  have hjob : EndsAlike Job.Alike (s.job v) (s'.job v) := by
    rw [Sorted.job, Sorted.job, harguments]
    exact hgiven.ofGiven.bind fun o o' ho => Job.endsAlike_ofVerb v ho _
  rw [run, run, reply, reply, hl.ofWords_of_sorted hs (hh s hs), hl'.ofWords_of_sorted hs' hhelp']
  generalize s.job v = x, s'.job v = y at hjob
  cases hjob with
  | error fault => rfl
  | @ok j j' hj =>
    obtain ⟨hdeclarations, happly⟩ := hj
    simp only [respond, Job.run, hdeclarations, Job.apply, happly]

/-- A run of a command that ends with a status prints what the command derives, with status 0 and
without words, or prints nothing, with another status, where the command derives nothing. The order
and repetition of the names and kinds that are given does not matter. -/
theorem run_derives {o : Outcome} (hl : Leads ws v more) (hh : AsksNoHelp v more)
    (hr : run f ws = .ok o) :
    ((∃ ts, Derives f v more ts ∧ o = ⟨0, printedLines ts, []⟩) ∨
      (o.status ≠ 0 ∧ o.output = [] ∧ ∀ ts, ¬ Derives f v more ts)) ∧
    ∀ ws' more', Leads ws' v more' → AlikeFor v more more' → run f ws' = .ok o := by
  refine ⟨?_, fun ws' more' hl' h => (run_eq_of_alikeFor hl hl' hh h).symm.trans hr⟩
  -- A reply with another status is none that a derivation gets.
  have hnothing : ∀ {reply' : Reply}, reply f ws = .ok reply' → reply'.status ≠ 0 →
      reply'.output = [] → o.status ≠ 0 ∧ o.output = [] ∧ ∀ ts, ¬ Derives f v more ts := by
    intro reply' hreply hstatus hout
    rw [run_of_reply hreply, Except.ok.injEq] at hr
    subst hr
    refine ⟨hstatus, hout, fun ts hd => hstatus ?_⟩
    obtain ⟨j, c, steps, hj, hc, ht⟩ := hd.exists_job hl hh
    obtain ⟨steps', hdone⟩ := (Succeeds.job hj hc ht).exists_reply
    rw [hreply, Except.ok.injEq] at hdone
    rw [hdone]
  obtain ⟨n, t, h⟩ | ⟨cause, h⟩ := exists_ending f ws
  · cases h with
    | done h =>
      left
      cases h with
      | version hw =>
        obtain ⟨j, hj, -⟩ := exists_derives (f := f) hl hh hw
        cases hj
      | help hw =>
        obtain ⟨j, hj, -⟩ := exists_derives (f := f) hl hh hw
        cases hj
      | @job j verbose c _ steps hw hc ht =>
        obtain ⟨j', hj, hd⟩ := exists_derives hl hh hw
        cases hj
        obtain ⟨ts, hts, hout⟩ := hd c _ hc ht
        refine ⟨ts, hts, ?_⟩
        have hreply : reply f ws = .ok ⟨0, t, [], []⟩ := by
          rw [reply_job hw, hc]
          simp only [Job.apply, ht, Bool.false_eq_true, if_false]
        rw [run_of_reply hreply, Except.ok.injEq] at hr
        rw [← hr, ← hout]
        rfl
    | failed h =>
      obtain ⟨steps, hreply⟩ := h.exists_reply
      exact .inr (hnothing hreply Nat.one_ne_zero rfl)
    | refused h => exact .inr (hnothing h.reply_eq (Nat.succ_ne_zero 1) rfl)
  · rw [run, h.reply_eq] at hr
    cases hr

end

/-! ## Colours -/

/-- A folder with the declaration of a record that has a field with a coloured name. -/
def colouredFiles : Folder := .ofFiles [
  ("a.yaml", Utf8.encode
    "schemas:\n A:\n  type: record\n  fields:\n   x: string\n   \"\\e[31my\": number\n".toList)]

/-- Words by which a field is picked. -/
def pickX : List Text := ["A", "--declarations", "a.yaml", "--key", "x"]

/-- Words by which the same field is picked, and picked again. -/
def pickXTwice : List Text := ["-kx", "A", "--key=x", "--declarations", "a.yaml"]

theorem run_derives_pickX :
    Leads ("pick" :: pickX) .pick pickX ∧ AsksNoHelp .pick pickX ∧ AlikeFor .pick pickX pickXTwice ∧
      (∃ ts, Derives colouredFiles .pick pickX ts) ∧
      run colouredFiles ("pick" :: pickXTwice) =
        .ok ⟨0, "type: record\nfields:\n  x: string\n", []⟩ := by
  have hl : Leads ("pick" :: pickX) .pick pickX := leads_word .pick pickX
  have hl' : Leads ("pick" :: pickXTwice) .pick pickXTwice := leads_word .pick pickXTwice
  have hs : sortWords (Verb.options .pick) true pickX =
      .ok ⟨[(.declarations, some "a.yaml"), (.key, some "x")], ["A"]⟩ := by decide +kernel
  have hs' : sortWords (Verb.options .pick) true pickXTwice =
      .ok ⟨[(.key, some "x"), (.key, some "x"), (.declarations, some "a.yaml")], ["A"]⟩ := by
    decide +kernel
  have hh : AsksNoHelp .pick pickX := by
    intro s h
    rw [hs] at h
    cases h
    decide
  have ha : AlikeFor .pick pickX pickXTwice := by
    refine ⟨_, _, hs, hs', rfl, ?_, ?_, ?_, ?_⟩
    · decide
    · intro w
      simp [Options.valuesOf]
    · intro w
      simp [Options.valuesOf]
    · decide
  have hr : run colouredFiles ("pick" :: pickX) =
      .ok ⟨0, "type: record\nfields:\n  x: string\n", []⟩ := by decide +kernel
  obtain ⟨hprints, hsame⟩ := run_derives hl hh hr
  refine ⟨hl, hh, ha, ?_, hsame _ _ hl' ha⟩
  obtain ⟨ts, hts, -⟩ := hprints.resolve_right fun hnone => hnone.1 rfl
  exact ⟨ts, hts⟩

/-- The words by which the names of two records are united. -/
def unite : List Text := ["union", "A", "A", "--declarations", "a.yaml"]

/-- The names that are united, of which the first tells of a colour. -/
def united : List Text := [.scalar '\x1b' :: "[31my", "x"]

/-- The colour of a name is not printed. -/
theorem run_unite : Derives colouredFiles .keys unite united ∧
    run colouredFiles ("keys" :: unite) = .ok ⟨0, "y\nx\n", []⟩ ∧
    (united.map fun t => t ++ [lineEnd]).flatten ≠ ("y\nx\n" : Text) := by
  have hnames : ((Catalog.load colouredFiles "a.yaml").toOption.bind fun c =>
      (c.getRecord "A").toOption.map fun r => (r.keys.union r.keys).names) = some united := by
    decide +kernel
  obtain ⟨c, hc, hr⟩ := Option.bind_eq_some_iff.1 hnames
  obtain ⟨r, hr, hunited⟩ := Option.map_eq_some_iff.1 hr
  have hget := toOption_eq_some_iff.1 hr
  have hunion : choice? keyAlgebra "union" = some KeySource.union := rfl
  have hd : Derived c { declarations := some "a.yaml" } .keys ["union", "A", "A"] united := by
    rw [← hunited]
    exact .keys hunion hget hget rfl
  have hs : sortWords (Verb.options .keys) true unite =
      .ok ⟨[(.declarations, some "a.yaml")], ["union", "A", "A"]⟩ := by decide +kernel
  refine ⟨⟨_, _, _, c, hs, rfl, rfl, toOption_eq_some_iff.1 hc, hd⟩, ?_, ?_⟩ <;> decide +kernel

end ShapeAlgebra.Command
