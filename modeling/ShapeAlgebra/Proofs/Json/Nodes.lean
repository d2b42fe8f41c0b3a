import ShapeAlgebra.Proofs.Json.Tokens
import ShapeAlgebra.Proofs.Yaml.Nodes

/-!
# The nodes of documents between brackets

The tokens of collections between brackets become nodes that represent the document, just as those
of blocks do.

Results:

* `Json.reads_tree`: the tokens of a document between brackets are read as nodes that represent it.
-/

namespace ShapeAlgebra.Json

open Yaml

theorem tokensOf_begins (d : Document) :
    ∃ t ts, tokensOf d = t :: ts ∧ t.beginsNode = true := by
  cases d with
  | text t => exact ⟨_, _, by rw [tokensOf], rfl⟩
  | bool b => exact ⟨_, _, by rw [tokensOf], rfl⟩
  | list items => exact ⟨_, _, by rw [tokensOf], rfl⟩
  | mapping entries => exact ⟨_, _, by rw [tokensOf], rfl⟩

/-- Whether the tokens of a document between brackets are read as nodes that represent it. -/
def ReadsTree (d : Document) : Prop :=
  ∀ {f : Frame} {r : Reading} {rest : List Token} {block : Bool} {fuel : Nat}, f.fault = none →
    r.tokens = tokensOf d ++ rest → 2 * r.tokens.length ≤ fuel → r.depth + d.height ≤ deepest →
    GivesNode (f.node block false fuel) r rest d

section

variable {f : Frame} {r : Reading} {rest : List Token} {fuel : Nat}

/-- The head of what follows is none of some tokens that begin no node. -/
theorem head?_any_eq_false {ts : List Token} (hts : ∀ t ∈ ts, t.beginsNode = false) (d : Document)
    (rest : List Token) : (tokensOf d ++ rest).head?.any ts.contains = false := by
  obtain ⟨t, us, hbegins, ht⟩ := tokensOf_begins d
  rw [hbegins, List.cons_append, List.head?_cons, Option.any_some, ← Bool.not_eq_true,
    List.contains_iff_mem]
  intro hmem
  rw [hts t hmem] at ht
  cases ht

theorem run_flowItems_first {d : Document} (hf : f.fault = none)
    (htokens : r.tokens = tokensOf d ++ rest) :
    (f.flowItems true (fuel + 1)).run r =
      (do let n ← f.node false false fuel; return n :: (← f.flowItems false fuel)).run r := by
  have hend := run_at? (r := r) hf [.flowSequenceEnd]
  have hkey := run_at? (r := r) hf [.key]
  rw [htokens, head?_any_eq_false (by decide)] at hend hkey
  rw [Frame.flowItems, run_bind_ok hend, if_neg Bool.false_ne_true]
  simp only [Bool.not_true, Bool.false_eq_true, if_false]
  rw [run_bind_ok hkey, if_neg Bool.false_ne_true, run_bind_ok hend, if_neg Bool.false_ne_true]

theorem run_flowItems_comma {d : Document} (hf : f.fault = none)
    (htokens : r.tokens = .comma :: (tokensOf d ++ rest)) :
    (f.flowItems false (fuel + 1)).run r =
      (do let n ← f.node false false fuel; return n :: (← f.flowItems false fuel)).run
        (r.extend (tokensOf d ++ rest) #[]) := by
  have hcomma := run_at? (r := r) hf [.flowSequenceEnd]
  rw [htokens, List.head?_cons, Option.any_some] at hcomma
  have hend := run_at? (r := r.extend (tokensOf d ++ rest) #[]) hf [.flowSequenceEnd]
  have hkey := run_at? (r := r.extend (tokensOf d ++ rest) #[]) hf [.key]
  rw [Reading.extend, head?_any_eq_false (by decide), ← Reading.extend] at hend hkey
  rw [Frame.flowItems, run_bind_ok hcomma, if_neg (by decide)]
  simp only [Bool.not_false, if_true]
  rw [run_bind_ok (run_expect hf htokens), run_bind_ok hkey, if_neg Bool.false_ne_true,
    run_bind_ok hend, if_neg Bool.false_ne_true]

/-- The items between brackets, and the closing one. -/
theorem gives_flowItems {items : List Document} {first : Bool} (hf : f.fault = none)
    (hitems : ∀ d ∈ items, ReadsTree d) (hne : items ≠ [])
    (htokens : r.tokens = (if first then [] else [.comma]) ++
      (tokensOfItems items ++ .flowSequenceEnd :: rest))
    (hfuel : 2 * r.tokens.length + 1 ≤ fuel)
    (hdepth : r.depth + Document.heightOfItems items ≤ deepest) :
    GivesItems (f.flowItems first fuel) r rest items := by
  induction items generalizing r fuel first with
  | nil => exact absurd rfl hne
  | cons d ds ih =>
    rw [Document.heightOfItems] at hdepth
    generalize htail : (if ds.isEmpty then [] else .comma :: tokensOfItems ds) ++
      .flowSequenceEnd :: rest = us
    have htokens' : r.tokens = (if first then [] else [.comma]) ++ (tokensOf d ++ us) := by
      rw [htokens, tokensOfItems, ← htail, List.append_assoc]
    obtain ⟨fuel, rfl⟩ : ∃ k, fuel = k + 1 := ⟨fuel - 1, by omega⟩
    have hlength := congrArg List.length htokens'
    rw [List.length_append, List.length_append] at hlength
    have hgives : ∀ s : Reading, s.tokens = tokensOf d ++ us → s.depth = r.depth →
        GivesItems (do let n ← f.node false false fuel; return n :: (← f.flowItems false fuel)) s
          rest (d :: ds) := by
      intro s hs hsdepth
      have hnode : GivesNode (f.node false false fuel) s us d := by
        refine hitems d List.mem_cons_self hf hs ?_ (by omega)
        rw [hs, List.length_append]
        omega
      refine .cons hnode fun more => ?_
      obtain ⟨t, ts, hbegins, -⟩ := tokensOf_begins d
      have hpos : 0 < (tokensOf d).length := by rw [hbegins]; exact Nat.succ_pos _
      cases ds with
      | nil =>
        obtain ⟨fuel, rfl⟩ : ∃ k, fuel = k + 1 := ⟨fuel - 1, by omega⟩
        have hrest : (s.extend us more).tokens = .flowSequenceEnd :: rest := htail.symm
        have hend := run_at? (r := s.extend us more) hf [.flowSequenceEnd]
        rw [hrest, List.head?_cons, Option.any_some] at hend
        refine .nil ?_
        rw [Frame.flowItems, run_bind_ok hend, if_pos (by decide), run_bind_ok (run_advance hrest)]
        rfl
      | cons e es =>
        refine ih (fun d hd => hitems d (List.mem_cons_of_mem _ hd)) (List.cons_ne_nil e es)
          htail.symm ?_ ?_
        · simp only [Reading.extend]
          omega
        · simp only [Reading.extend]
          omega
    cases first with
    | true =>
      rw [GivesItems, run_flowItems_first hf htokens']
      exact hgives r htokens' rfl
    | false => exact .after (run_flowItems_comma hf htokens') (hgives _ rfl rfl)

/-- What is read of an entry and the further ones, when its mark has been taken. -/
def entryStep (f : Frame) (fuel : Nat) : Step (List (Nat × Nat)) := do
  let k ← f.nodeUnless [.value, .comma, .flowMappingEnd] false false fuel
  let v ← f.valueUnless [.comma, .flowMappingEnd] false false fuel
  return (k, v) :: (← f.flowEntries false fuel)

theorem run_flowEntries_first (hf : f.fault = none) (htokens : r.tokens = .key :: rest) :
    (f.flowEntries true (fuel + 1)).run r = (entryStep f fuel).run (r.extend rest #[]) := by
  have hend := run_at? (r := r) hf [.flowMappingEnd]
  have hkey := run_at? (r := r) hf [.key]
  rw [htokens, List.head?_cons, Option.any_some] at hend hkey
  rw [Frame.flowEntries, run_bind_ok hend, if_neg (by decide)]
  simp only [Bool.not_true, Bool.false_eq_true, if_false]
  rw [run_bind_ok hkey, if_pos (by decide), run_bind_ok (run_advance htokens), entryStep]

theorem run_flowEntries_comma (hf : f.fault = none) (htokens : r.tokens = .comma :: .key :: rest) :
    (f.flowEntries false (fuel + 1)).run r = (entryStep f fuel).run (r.extend rest #[]) := by
  have hcomma := run_at? (r := r) hf [.flowMappingEnd]
  rw [htokens, List.head?_cons, Option.any_some] at hcomma
  have hkey := run_at? (r := r.extend (.key :: rest) #[]) hf [.key]
  rw [Reading.extend, List.head?_cons, Option.any_some, ← Reading.extend] at hkey
  have hadvance : advance.run (r.extend (.key :: rest) #[]) =
      .ok ((), (r.extend (.key :: rest) #[]).extend rest #[]) := run_advance rfl
  rw [Reading.extend_extend, Array.append_empty] at hadvance
  rw [Frame.flowEntries, run_bind_ok hcomma, if_neg (by decide)]
  simp only [Bool.not_false, if_true]
  rw [run_bind_ok (run_expect hf htokens), run_bind_ok hkey, if_pos (by decide),
    run_bind_ok hadvance, entryStep]

/-- The entries between brackets, and the closing one. -/
theorem gives_flowEntries {entries : List (Text × Document)} {first : Bool} (hf : f.fault = none)
    (hvalues : ∀ e ∈ entries, ReadsTree e.2) (hne : entries ≠ [])
    (htokens : r.tokens = (if first then [] else [.comma]) ++
      (tokensOfEntries entries ++ .flowMappingEnd :: rest))
    (hfuel : 2 * r.tokens.length + 1 ≤ fuel)
    (hdepth : r.depth + Document.heightOfEntries entries ≤ deepest) :
    GivesEntries (f.flowEntries first fuel) r rest entries := by
  induction entries generalizing r fuel first with
  | nil => exact absurd rfl hne
  | cons e es ih =>
    obtain ⟨k, d⟩ := e
    rw [Document.heightOfEntries] at hdepth
    generalize htail : (if es.isEmpty then [] else .comma :: tokensOfEntries es) ++
      .flowMappingEnd :: rest = us
    have htokens' : r.tokens = (if first then [] else [.comma]) ++
        .key :: .scalar false k :: .value :: (tokensOf d ++ us) := by
      rw [htokens, tokensOfEntries, ← htail]
      simp only [List.cons_append, List.append_assoc]
    have hlength := congrArg List.length htokens'
    simp only [List.length_append, List.length_cons] at hlength
    obtain ⟨fuel, rfl⟩ : ∃ k, fuel = k + 4 := ⟨fuel - 4, by omega⟩
    have hvalue : ∀ s : Reading, s.tokens = tokensOf d ++ us → s.depth = r.depth →
        GivesNode (f.node false false (fuel + 1)) s us d := by
      intro s hs hsdepth
      have hdeep : s.depth + d.height ≤ deepest := by omega
      refine hvalues (k, d) List.mem_cons_self hf hs ?_ hdeep
      rw [hs, List.length_append]
      omega
    have hmore : ∀ s : Reading, s.tokens = us → s.depth = r.depth →
        GivesEntries (f.flowEntries false (fuel + 3)) s rest es := by
      intro s hs hsdepth
      cases es with
      | nil =>
        have hrest : s.tokens = .flowMappingEnd :: rest := hs.trans htail.symm
        have hend := run_at? (r := s) hf [.flowMappingEnd]
        rw [hrest, List.head?_cons, Option.any_some] at hend
        refine .nil ?_
        rw [Frame.flowEntries, run_bind_ok hend, if_pos (by decide),
          run_bind_ok (run_advance hrest)]
        rfl
      | cons e es =>
        refine ih (fun e he => hvalues e (List.mem_cons_of_mem _ he)) (List.cons_ne_nil e es)
          (hs.trans htail.symm) ?_ (by omega)
        rw [hs]
        omega
    have hentry : GivesEntries (entryStep f (fuel + 3))
        (r.extend (.scalar false k :: .value :: (tokensOf d ++ us)) #[]) rest ((k, d) :: es) :=
      .entry hf rfl rfl (by simp) (head?_any_eq_false (by decide) d us) hvalue hmore
    cases first with
    | true => exact .after (run_flowEntries_first hf htokens') hentry
    | false => exact .after (run_flowEntries_comma hf htokens') hentry

/-! ## Documents as trees -/

theorem readsTree_text (x : Text) : ReadsTree (.text x) := by
  intro f r rest block fuel hf htokens hfuel _
  rw [tokensOf, List.singleton_append] at htokens
  rw [htokens, List.length_cons] at hfuel
  exact givesNode_text (by omega) htokens rfl

theorem readsTree_bool (b : Bool) : ReadsTree (.bool b) := by
  intro f r rest block fuel hf htokens hfuel _
  rw [tokensOf, List.singleton_append] at htokens
  rw [htokens, List.length_cons] at hfuel
  exact givesNode_bool (by omega) htokens

theorem readsTree_list {items : List Document} (h : ∀ d ∈ items, ReadsTree d) :
    ReadsTree (.list items) := by
  intro f r rest block fuel hf htokens hfuel hdepth
  rw [Document.height] at hdepth
  rw [tokensOf, List.cons_append, List.append_assoc, List.singleton_append] at htokens
  have hlength := congrArg List.length htokens
  rw [List.length_cons, List.length_append, List.length_cons] at hlength
  obtain ⟨fuel, rfl⟩ : ∃ k, fuel = k + 2 := ⟨fuel - 2, by omega⟩
  refine givesNode_flowSequence htokens (by omega) ?_
  cases items with
  | nil => exact gives_flowItems_nil hf rfl
  | cons d ds =>
    refine gives_flowItems hf h (List.cons_ne_nil d ds) rfl ?_ ?_
    · simp only [Reading.extend, List.length_append, List.length_cons]
      omega
    · simp only [Reading.extend, Reading.inside]
      omega

theorem readsTree_mapping {entries : List (Text × Document)} (h : ∀ e ∈ entries, ReadsTree e.2) :
    ReadsTree (.mapping entries) := by
  intro f r rest block fuel hf htokens hfuel hdepth
  rw [Document.height] at hdepth
  rw [tokensOf, List.cons_append, List.append_assoc, List.singleton_append] at htokens
  have hlength := congrArg List.length htokens
  rw [List.length_cons, List.length_append, List.length_cons] at hlength
  obtain ⟨fuel, rfl⟩ : ∃ k, fuel = k + 2 := ⟨fuel - 2, by omega⟩
  refine givesNode_flowMapping htokens (by omega) ?_
  cases entries with
  | nil => exact gives_flowEntries_nil hf rfl
  | cons e es =>
    refine gives_flowEntries hf h (List.cons_ne_nil e es) rfl ?_ ?_
    · simp only [Reading.extend, List.length_append, List.length_cons]
      omega
    · simp only [Reading.extend, Reading.inside]
      omega

/-- The tokens of a document between brackets are read as nodes that represent it. -/
theorem reads_tree (d : Document) : ReadsTree d := by
  induction d using Document.induction with
  | text x => exact readsTree_text x
  | bool b => exact readsTree_bool b
  | list items ih => exact readsTree_list ih
  | mapping entries ih => exact readsTree_mapping ih

end

end ShapeAlgebra.Json
