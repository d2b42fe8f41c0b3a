import ShapeAlgebra.Proofs.Yaml.Block
import ShapeAlgebra.Yaml.Node.Reader

/-!
# The nodes of documents

The tokens of a document become nodes that represent it: every part has a node of its own, with a
higher number than the collection in which it is.

Results:

* `Yaml.Represents.mono`: further nodes do not matter.
* `Yaml.reads_tree`: the tokens of a document in block style are read as nodes that represent it.
* `Yaml.exists_graph`: so a whole document is read as a graph that represents it.
-/

namespace ShapeAlgebra.Yaml

/-! ## Documents as nodes -/

mutual

/-- Whether node `n` represents a document. -/
def Represents (ns : Nodes) (n : Nat) : Document → Prop
  | .text t => ns[n]? = some ⟨.text, .scalar t⟩
  | .bool b => ns[n]? = some ⟨.bool, .scalar (Text.ofChars (boolWord b))⟩
  | .list items => ∃ ms, ns[n]? = some ⟨.sequence, .sequence ms⟩ ∧ RepresentItems ns n ms items
  | .mapping entries => ∃ ms, ns[n]? = some ⟨.mapping, .mapping ms⟩ ∧
      RepresentEntries ns n ms entries

/-- Whether nodes with higher numbers than `n` represent the items of a list. -/
def RepresentItems (ns : Nodes) (n : Nat) (ms : List Nat) : List Document → Prop
  | [] => ms = []
  | d :: ds => ∃ m ms', ms = m :: ms' ∧ n < m ∧ Represents ns m d ∧ RepresentItems ns n ms' ds

/-- Whether nodes with higher numbers than `n` represent the entries of a mapping. -/
def RepresentEntries (ns : Nodes) (n : Nat) (ms : List (Nat × Nat)) :
    List (Text × Document) → Prop
  | [] => ms = []
  | (k, d) :: rest => ∃ i m ms', ms = (i, m) :: ms' ∧ n < i ∧ n < m ∧
      ns[i]? = some ⟨.text, .scalar k⟩ ∧ Represents ns m d ∧ RepresentEntries ns n ms' rest

end

section

variable {ns ns' : Nodes} {n : Nat}

theorem RepresentItems.imp {ms : List Nat} {items : List Document}
    (h : RepresentItems ns n ms items)
    (himp : ∀ d ∈ items, ∀ m, n < m → Represents ns m d → Represents ns' m d) :
    RepresentItems ns' n ms items := by
  induction items generalizing ms with
  | nil => exact h
  | cons d ds ih =>
    rw [RepresentItems] at h ⊢
    obtain ⟨m, ms, rfl, hm, hd, hds⟩ := h
    exact ⟨m, ms, rfl, hm, himp d List.mem_cons_self m hm hd,
      ih hds fun d hd => himp d (List.mem_cons_of_mem _ hd)⟩

theorem RepresentEntries.imp {ms : List (Nat × Nat)} {entries : List (Text × Document)}
    (h : RepresentEntries ns n ms entries)
    (hkeep : ∀ i node, n < i → ns[i]? = some node → ns'[i]? = some node)
    (himp : ∀ e ∈ entries, ∀ m, n < m → Represents ns m e.2 → Represents ns' m e.2) :
    RepresentEntries ns' n ms entries := by
  induction entries generalizing ms with
  | nil => exact h
  | cons e es ih =>
    obtain ⟨k, d⟩ := e
    rw [RepresentEntries] at h ⊢
    obtain ⟨i, m, ms, rfl, hi, hm, hk, hd, hes⟩ := h
    exact ⟨i, m, ms, rfl, hi, hm, hkeep i _ hi hk, himp _ List.mem_cons_self m hm hd,
      ih hes fun e he => himp e (List.mem_cons_of_mem _ he)⟩

/-- What represents a document does so among other nodes with lower numbers and further nodes. -/
theorem Represents.mono {d : Document} (h : Represents ns n d)
    (hkeep : ∀ i node, n ≤ i → ns[i]? = some node → ns'[i]? = some node) :
    Represents ns' n d := by
  induction d using Document.induction generalizing n with
  | text t => exact hkeep n _ (Nat.le_refl n) h
  | bool b => exact hkeep n _ (Nat.le_refl n) h
  | list items ih =>
    rw [Represents] at h ⊢
    obtain ⟨ms, hn, hitems⟩ := h
    exact ⟨ms, hkeep n _ (Nat.le_refl n) hn, hitems.imp fun d hd m hm h =>
      ih d hd h fun i node hi => hkeep i node (Nat.le_trans (Nat.le_of_lt hm) hi)⟩
  | mapping entries ih =>
    rw [Represents] at h ⊢
    obtain ⟨ms, hn, hentries⟩ := h
    exact ⟨ms, hkeep n _ (Nat.le_refl n) hn,
      hentries.imp (fun i node hi => hkeep i node (Nat.le_of_lt hi)) fun e he m hm h =>
        ih e he h fun i node hi => hkeep i node (Nat.le_trans (Nat.le_of_lt hm) hi)⟩

theorem Represents.lt_size {d : Document} (h : Represents ns n d) : n < ns.size := by
  have hsome : ∃ node, ns[n]? = some node := by
    cases d with
    | text t => exact ⟨_, h⟩
    | bool b => exact ⟨_, h⟩
    | list items => rw [Represents] at h; exact ⟨_, h.choose_spec.1⟩
    | mapping entries => rw [Represents] at h; exact ⟨_, h.choose_spec.1⟩
  obtain ⟨node, hnode⟩ := hsome
  exact (Array.getElem?_eq_some_iff.1 hnode).1

end

/-! ## Tags -/

theorem chars?_ofChars (cs : List Char) : (Text.ofChars cs).chars? = some cs := by
  induction cs with
  | nil => rfl
  | cons c cs ih =>
    rw [Text.chars?] at ih
    rw [Text.chars?, Text.ofChars, List.map_cons, List.mapM_cons]
    simp only [Text.ofChars] at ih
    rw [ih]
    rfl

theorem scalarTag_of_style (t : Text) : scalarTag none (Style.of t == .plain) t = .text := by
  cases hstyle : Style.of t with
  | plain =>
    obtain ⟨cs, rfl, htag, hplain, -⟩ := writeScalar_of_plain hstyle
    have hbreak : (Text.ofChars cs).getLast? ≠ some (.scalar '\n') := by
      intro h
      rw [Text.ofChars, List.getLast?_map, Option.map_eq_some_iff] at h
      obtain ⟨c, hc, hcode⟩ := h
      cases hcode
      exact absurd (hplain.printable _ (List.mem_of_getLast? hc)) (by decide)
    have hform : Tag.ofForm (Text.ofChars cs) = Tag.ofPlain cs := by
      simp [Tag.ofForm, hbreak, chars?_ofChars]
    rw [← htag, ← hform]
    rfl
  | single => rfl
  | double => rfl

theorem scalarTag_boolWord (b : Bool) :
    scalarTag none true (Text.ofChars (boolWord b)) = .bool := by
  cases b <;> decide

/-! ## Steps -/

/-- The reading when the tokens up to `rest` have been taken and nodes have been added. -/
def Reading.extend (r : Reading) (rest : List Token) (more : Nodes) : Reading :=
  { r with tokens := rest, nodes := r.nodes ++ more }

theorem run_bind_ok {σ ε α β : Type} {x : StateT σ (Except ε) α} {s s' : σ} {a : α}
    (h : x.run s = .ok (a, s')) (g : α → StateT σ (Except ε) β) :
    (x >>= g).run s = (g a).run s' := by
  rw [StateT.run_bind, h]
  rfl

section

variable {r : Reading} {t : Token} {rest : List Token}

theorem run_peek (f : Frame) (h : r.tokens = t :: rest) : f.peek.run r = .ok (some t, r) := by
  obtain ⟨_, _, _, _⟩ := r
  cases h
  rfl

theorem run_at? {f : Frame} (hf : f.fault = none) (ts : List Token) :
    (f.at? ts).run r = .ok (r.tokens.head?.any ts.contains, r) := by
  obtain ⟨tokens, _, _, _⟩ := r
  cases tokens with
  | nil =>
    obtain ⟨_, _⟩ := f
    cases hf
    rfl
  | cons => rfl

theorem run_advance (h : r.tokens = t :: rest) : advance.run r = .ok ((), r.extend rest #[]) := by
  obtain ⟨_, nodes, _, _⟩ := r
  cases h
  rw [Reading.extend, Array.append_empty]
  rfl

theorem run_expect {f : Frame} (hf : f.fault = none) (h : r.tokens = t :: rest) :
    (f.expect t).run r = .ok ((), r.extend rest #[]) := by
  have hat := run_at? (r := r) hf [t]
  rw [h, List.head?_cons, Option.any_some] at hat
  rw [Frame.expect, run_bind_ok hat, if_pos (by simp), run_advance h]

theorem run_node_scalar {f : Frame} {block flush plain : Bool} {fuel : Nat} {x : Text}
    (h : r.tokens = .scalar plain x :: rest) :
    (f.node block flush (fuel + 1)).run r =
      .ok (r.nodes.size, r.extend rest #[⟨scalarTag none plain x, .scalar x⟩]) := by
  obtain ⟨_, nodes, _, _⟩ := r
  cases h
  rw [Frame.node]
  rfl

theorem run_addCollection {tag : Tag} {content : Step Content} {c : Content} {more : Nodes}
    (hdepth : r.depth < deepest)
    (h : content.run { r with nodes := r.nodes.push ⟨tag, .sequence []⟩, depth := r.depth + 1 } =
      .ok (c, { r with
        tokens := rest
        nodes := r.nodes.push ⟨tag, .sequence []⟩ ++ more
        depth := r.depth + 1 })) :
    (addCollection none tag content).run r =
      .ok (r.nodes.size, r.extend rest (#[⟨tag, c⟩] ++ more)) := by
  have hcheck : (checkAnchor none).run r = .ok ((), r) := rfl
  have hget : (get : Step Reading).run r = .ok (r, r) := rfl
  have hadd : (add ⟨tag, .sequence []⟩).run r =
      .ok (r.nodes.size, { r with nodes := r.nodes.push ⟨tag, .sequence []⟩ }) := rfl
  have hset : (r.nodes.push ⟨tag, .sequence []⟩ ++ more).setIfInBounds r.nodes.size ⟨tag, c⟩ =
      r.nodes ++ (#[⟨tag, c⟩] ++ more) := by
    apply Array.ext'
    simp
  have hopen : (modify fun s => { s.remember none r.nodes.size with depth := s.depth + 1 } :
      Step Unit).run { r with nodes := r.nodes.push ⟨tag, .sequence []⟩ } =
      .ok ((), { r with nodes := r.nodes.push ⟨tag, .sequence []⟩, depth := r.depth + 1 }) := rfl
  rw [addCollection, run_bind_ok hcheck, run_bind_ok hget]
  simp only [Nat.ne_of_lt hdepth, if_false]
  rw [run_bind_ok hadd, run_bind_ok hopen, run_bind_ok h, Reading.extend, ← hset]
  rfl

end

/-! ## What steps give -/

/-- Whether a step takes the tokens in front of `rest` and gives the first of the nodes that it
adds, which represents `d`. -/
def GivesNode (x : Step Nat) (r : Reading) (rest : List Token) (d : Document) : Prop :=
  ∃ more, x.run r = .ok (r.nodes.size, r.extend rest more) ∧
    Represents (r.nodes ++ more) r.nodes.size d

/-- Whether a step takes the tokens in front of `rest` and gives new nodes that represent items. -/
def GivesItems (x : Step (List Nat)) (r : Reading) (rest : List Token) (items : List Document) :
    Prop :=
  ∃ ms more, x.run r = .ok (ms, r.extend rest more) ∧
    ∀ n < r.nodes.size, RepresentItems (r.nodes ++ more) n ms items

/-- Whether a step takes the tokens in front of `rest` and gives new nodes that represent
entries. -/
def GivesEntries (x : Step (List (Nat × Nat))) (r : Reading) (rest : List Token)
    (entries : List (Text × Document)) : Prop :=
  ∃ ms more, x.run r = .ok (ms, r.extend rest more) ∧
    ∀ n < r.nodes.size, RepresentEntries (r.nodes ++ more) n ms entries

/-- The reading inside a collection, which has got its number. -/
def Reading.inside (r : Reading) (tag : Tag) : Reading :=
  { r with nodes := r.nodes.push ⟨tag, .sequence []⟩, depth := r.depth + 1 }

section

variable {r : Reading} {rest rest' rest'' : List Token} {d : Document}

theorem append_cons (ns more : Nodes) (a : Node) : ns ++ (#[a] ++ more) = ns.push a ++ more := by
  rw [← Array.append_assoc, Array.append_singleton]

theorem getElem?_push_append (ns more : Nodes) (a : Node) :
    (ns.push a ++ more)[ns.size]? = some a := by
  rw [Array.getElem?_append_left (by simp), Array.getElem?_push_size]

theorem getElem?_push_append_of_lt {ns more : Nodes} {a b : Node} {i : Nat} (h : ns.size < i) :
    (ns.push a ++ more)[i]? = (ns.push b ++ more)[i]? := by
  have hle : ∀ c, (ns.push c).size ≤ i := fun c => by
    rw [Array.size_push]
    exact h
  rw [Array.getElem?_append_right (hle a), Array.getElem?_append_right (hle b), Array.size_push,
    Array.size_push]

theorem GivesItems.node {x : Step (List Nat)} {items : List Document}
    (h : GivesItems x (r.inside .sequence) rest items) (hdepth : r.depth < deepest) :
    GivesNode (addCollection none .sequence (.sequence <$> x)) r rest (.list items) := by
  obtain ⟨ms, more, hrun, hitems⟩ := h
  have hcontent : (Content.sequence <$> x).run (r.inside .sequence) =
      .ok (.sequence ms, (r.inside .sequence).extend rest more) := by
    rw [StateT.run_map, hrun]
    rfl
  refine ⟨_, run_addCollection hdepth hcontent, ?_⟩
  rw [Represents, append_cons]
  refine ⟨ms, getElem?_push_append .., ?_⟩
  have hlt : r.nodes.size < (r.inside .sequence).nodes.size := by simp [Reading.inside]
  refine (hitems _ hlt).imp fun d _ m hm hd => hd.mono fun i node hi hnode => ?_
  rw [← getElem?_push_append_of_lt (Nat.lt_of_lt_of_le hm hi)]
  exact hnode

theorem GivesEntries.node {x : Step (List (Nat × Nat))} {entries : List (Text × Document)}
    (h : GivesEntries x (r.inside .mapping) rest entries) (hdepth : r.depth < deepest) :
    GivesNode (addCollection none .mapping (.mapping <$> x)) r rest (.mapping entries) := by
  obtain ⟨ms, more, hrun, hentries⟩ := h
  have hcontent : (Content.mapping <$> x).run (r.inside .mapping) =
      .ok (.mapping ms, (r.inside .mapping).extend rest more) := by
    rw [StateT.run_map, hrun]
    rfl
  refine ⟨_, run_addCollection hdepth hcontent, ?_⟩
  rw [Represents, append_cons]
  refine ⟨ms, getElem?_push_append .., ?_⟩
  have hlt : r.nodes.size < (r.inside .mapping).nodes.size := by simp [Reading.inside]
  refine (hentries _ hlt).imp (fun i node hi hnode => ?_) fun e _ m hm hd =>
    hd.mono fun i node hi hnode => ?_
  · rw [← getElem?_push_append_of_lt hi]
    exact hnode
  · rw [← getElem?_push_append_of_lt (Nat.lt_of_lt_of_le hm hi)]
    exact hnode

theorem Reading.extend_extend (r : Reading) (more more' : Nodes) :
    (r.extend rest more).extend rest' more' = r.extend rest' (more ++ more') := by
  simp [Reading.extend]

/-- What was represented stays so when nodes are added. -/
theorem Represents.append {ns : Nodes} {n : Nat} (h : Represents ns n d) (more : Nodes) :
    Represents (ns ++ more) n d := by
  refine h.mono fun i node _ hnode => ?_
  rw [Array.getElem?_append_left (Array.getElem?_eq_some_iff.1 hnode).1, hnode]

theorem GivesItems.nil {x : Step (List Nat)} (h : x.run r = .ok ([], r.extend rest #[])) :
    GivesItems x r rest [] :=
  ⟨[], #[], h, fun _ _ => rfl⟩

theorem GivesItems.cons {x : Step Nat} {y : Step (List Nat)} {ds : List Document}
    (hd : GivesNode x r rest d) (hds : ∀ more, GivesItems y (r.extend rest more) rest' ds) :
    GivesItems (do let n ← x; return n :: (← y)) r rest' (d :: ds) := by
  obtain ⟨more, hx, hd⟩ := hd
  obtain ⟨ms, more', hy, hds⟩ := hds more
  refine ⟨r.nodes.size :: ms, more ++ more', ?_, fun n hn => ?_⟩
  · rw [run_bind_ok hx, run_bind_ok hy, Reading.extend_extend]
    rfl
  · rw [RepresentItems]
    have hlt : n < (r.extend rest more).nodes.size := by
      simp only [Reading.extend, Array.size_append]
      omega
    have hd' := hd.append more'
    rw [Array.append_assoc] at hd'
    have hds' := hds n hlt
    simp only [Reading.extend, Array.append_assoc] at hds'
    exact ⟨_, ms, rfl, hn, hd', hds'⟩

theorem GivesEntries.nil {x : Step (List (Nat × Nat))}
    (h : x.run r = .ok ([], r.extend rest #[])) : GivesEntries x r rest [] :=
  ⟨[], #[], h, fun _ _ => rfl⟩

theorem GivesEntries.cons {x y : Step Nat} {z : Step (List (Nat × Nat))} {k : Text}
    {entries : List (Text × Document)} (hk : GivesNode x r rest (.text k))
    (hd : ∀ more, GivesNode y (r.extend rest more) rest' d)
    (hes : ∀ more, GivesEntries z (r.extend rest' more) rest'' entries) :
    GivesEntries (do let k ← x; let v ← y; return (k, v) :: (← z)) r rest''
      ((k, d) :: entries) := by
  obtain ⟨more, hx, hk⟩ := hk
  obtain ⟨more', hy, hd⟩ := hd more
  obtain ⟨ms, more'', hz, hes⟩ := hes (more ++ more')
  refine ⟨(r.nodes.size, (r.extend rest more).nodes.size) :: ms, more ++ (more' ++ more''), ?_,
    fun n hn => ?_⟩
  · rw [run_bind_ok hx, run_bind_ok hy, Reading.extend_extend, run_bind_ok hz,
      Reading.extend_extend, Array.append_assoc]
    rfl
  · rw [RepresentEntries]
    have hlt : n < (r.extend rest more).nodes.size := by
      simp only [Reading.extend, Array.size_append]
      omega
    have hlt' : n < (r.extend rest' (more ++ more')).nodes.size := by
      simp only [Reading.extend, Array.size_append]
      omega
    have hk' := hk.append (more' ++ more'')
    have hd' := hd.append more''
    have hes' := hes n hlt'
    simp only [Reading.extend, Array.append_assoc] at hk' hd' hes'
    exact ⟨_, _, ms, rfl, hn, hlt, hk', hd', hes'⟩

end

/-! ## The beginnings of nodes -/

/-- Whether a token stands at the beginning of a node. -/
def Token.beginsNode : Token → Bool
  | .scalar .. | .flowSequence | .flowMapping | .blockSequence | .blockMapping => true
  | _ => false

theorem tokensOf_begins (flush : Bool) (d : Document) : ∃ t ts, tokensOf flush d = t :: ts ∧
    (t.beginsNode = true ∨ flush = true ∧ t = .item) := by
  cases d with
  | text t => exact ⟨_, _, rfl, .inl rfl⟩
  | bool b => exact ⟨_, _, rfl, .inl rfl⟩
  | list items =>
    rw [tokensOf]
    cases items with
    | nil => exact ⟨_, _, rfl, .inl rfl⟩
    | cons d ds =>
      cases flush with
      | false => exact ⟨_, _, rfl, .inl rfl⟩
      | true => exact ⟨_, _, rfl, .inr ⟨rfl, rfl⟩⟩
  | mapping entries =>
    rw [tokensOf]
    cases entries with
    | nil => exact ⟨_, _, rfl, .inl rfl⟩
    | cons e es => exact ⟨_, _, rfl, .inl rfl⟩

section

variable {f : Frame} {r : Reading} {rest : List Token} {t : Token} {fuel : Nat}

theorem GivesNode.unless {block flush : Bool} {ts : List Token} {d : Document}
    (hf : f.fault = none) (h : GivesNode (f.node block flush fuel) r rest d)
    (hts : r.tokens.head?.any ts.contains = false) :
    GivesNode (f.nodeUnless ts block flush (fuel + 1)) r rest d := by
  obtain ⟨more, hrun, hd⟩ := h
  refine ⟨more, ?_, hd⟩
  have hat := run_at? (r := r) hf ts
  rw [hts] at hat
  rw [Frame.nodeUnless, run_bind_ok hat, if_neg Bool.false_ne_true, hrun]

/-- Behind tokens that have been taken a step gives what is left for it to give. -/
theorem GivesItems.after {x y : Step (List Nat)} {ts : List Token} {items : List Document}
    (h : x.run r = y.run (r.extend ts #[])) (hy : GivesItems y (r.extend ts #[]) rest items) :
    GivesItems x r rest items := by
  obtain ⟨ms, more, hrun, hitems⟩ := hy
  refine ⟨ms, more, ?_, ?_⟩
  · rw [h, hrun, Reading.extend_extend, Array.empty_append]
  · simpa [Reading.extend] using hitems

theorem GivesEntries.after {x y : Step (List (Nat × Nat))} {ts : List Token}
    {entries : List (Text × Document)} (h : x.run r = y.run (r.extend ts #[]))
    (hy : GivesEntries y (r.extend ts #[]) rest entries) : GivesEntries x r rest entries := by
  obtain ⟨ms, more, hrun, hentries⟩ := hy
  refine ⟨ms, more, ?_, ?_⟩
  · rw [h, hrun, Reading.extend_extend, Array.empty_append]
  · simpa [Reading.extend] using hentries

theorem GivesNode.after {x y : Step Nat} {ts : List Token} {d : Document}
    (h : x.run r = y.run (r.extend ts #[])) (hy : GivesNode y (r.extend ts #[]) rest d) :
    GivesNode x r rest d := by
  obtain ⟨more, hrun, hd⟩ := hy
  refine ⟨more, ?_, ?_⟩
  · rw [h, hrun, Reading.extend_extend, Array.empty_append]
    simp [Reading.extend]
  · simpa [Reading.extend] using hd

theorem run_advance_seqRight {α : Type} {x : Step α} (h : r.tokens = t :: rest) :
    (advance *> x).run r = x.run (r.extend rest #[]) := by
  have hseq : (advance *> x) = advance >>= fun _ => x := by
    rw [seqRight_eq_bind]
  rw [hseq, run_bind_ok (run_advance h)]

/-! ## Nodes of each kind -/

theorem givesNode_text {block flush plain : Bool} {x : Text} (hfuel : 0 < fuel)
    (htokens : r.tokens = .scalar plain x :: rest) (htag : scalarTag none plain x = .text) :
    GivesNode (f.node block flush fuel) r rest (.text x) := by
  obtain ⟨fuel, rfl⟩ := Nat.exists_eq_add_of_le' hfuel
  refine ⟨_, run_node_scalar htokens, ?_⟩
  rw [Represents, htag]
  exact Array.getElem?_push_size

theorem givesNode_bool {block flush : Bool} {b : Bool} (hfuel : 0 < fuel)
    (htokens : r.tokens = .scalar true (Text.ofChars (boolWord b)) :: rest) :
    GivesNode (f.node block flush fuel) r rest (.bool b) := by
  obtain ⟨fuel, rfl⟩ := Nat.exists_eq_add_of_le' hfuel
  refine ⟨_, run_node_scalar htokens, ?_⟩
  rw [Represents, scalarTag_boolWord]
  exact Array.getElem?_push_size

section

variable {block flush : Bool} {us : List Token} {items : List Document}
  {entries : List (Text × Document)}

theorem givesNode_flowSequence (htokens : r.tokens = .flowSequence :: us)
    (hdeep : r.depth < deepest)
    (h : GivesItems (f.flowItems true fuel) ((r.inside .sequence).extend us #[]) rest items) :
    GivesNode (f.node block flush (fuel + 1)) r rest (.list items) := by
  have hrun : (f.node block flush (fuel + 1)).run r = (addCollection none .sequence
      (.sequence <$> (advance *> f.flowItems true fuel))).run r := by
    obtain ⟨_, nodes, _, _⟩ := r
    cases htokens
    rw [Frame.node]
    rfl
  rw [GivesNode, hrun]
  exact GivesItems.node (.after (run_advance_seqRight htokens) h) hdeep

theorem givesNode_flowMapping (htokens : r.tokens = .flowMapping :: us) (hdeep : r.depth < deepest)
    (h : GivesEntries (f.flowEntries true fuel) ((r.inside .mapping).extend us #[]) rest entries) :
    GivesNode (f.node block flush (fuel + 1)) r rest (.mapping entries) := by
  have hrun : (f.node block flush (fuel + 1)).run r = (addCollection none .mapping
      (.mapping <$> (advance *> f.flowEntries true fuel))).run r := by
    obtain ⟨_, nodes, _, _⟩ := r
    cases htokens
    rw [Frame.node]
    rfl
  rw [GivesNode, hrun]
  exact GivesEntries.node (.after (run_advance_seqRight htokens) h) hdeep

theorem givesNode_blockSequence (htokens : r.tokens = .blockSequence :: us)
    (hdeep : r.depth < deepest)
    (h : GivesItems (f.blockItems fuel) ((r.inside .sequence).extend us #[]) rest items) :
    GivesNode (f.node true flush (fuel + 1)) r rest (.list items) := by
  have hrun : (f.node true flush (fuel + 1)).run r = (addCollection none .sequence
      (.sequence <$> (advance *> f.blockItems fuel))).run r := by
    obtain ⟨_, nodes, _, _⟩ := r
    cases htokens
    rw [Frame.node]
    rfl
  rw [GivesNode, hrun]
  exact GivesItems.node (.after (run_advance_seqRight htokens) h) hdeep

theorem givesNode_blockMapping (htokens : r.tokens = .blockMapping :: us)
    (hdeep : r.depth < deepest)
    (h : GivesEntries (f.blockEntries fuel) ((r.inside .mapping).extend us #[]) rest entries) :
    GivesNode (f.node true flush (fuel + 1)) r rest (.mapping entries) := by
  have hrun : (f.node true flush (fuel + 1)).run r = (addCollection none .mapping
      (.mapping <$> (advance *> f.blockEntries fuel))).run r := by
    obtain ⟨_, nodes, _, _⟩ := r
    cases htokens
    rw [Frame.node]
    rfl
  rw [GivesNode, hrun]
  exact GivesEntries.node (.after (run_advance_seqRight htokens) h) hdeep

/-- Items that stand as far left as the key of their list begin no block. -/
theorem givesNode_flushSequence (htokens : r.tokens = .item :: us) (hdeep : r.depth < deepest)
    (h : GivesItems (f.flushItems fuel) (r.inside .sequence) rest items) :
    GivesNode (f.node block true (fuel + 1)) r rest (.list items) := by
  have hrun : (f.node block true (fuel + 1)).run r =
      (addCollection none .sequence (.sequence <$> f.flushItems fuel)).run r := by
    obtain ⟨_, nodes, _, _⟩ := r
    cases htokens
    rw [Frame.node]
    rfl
  rw [GivesNode, hrun]
  exact h.node hdeep

end

/-! ## The parts of documents in block style -/

/-- A document begins with none of some tokens that begin no node. -/
theorem head?_any_eq_false {d : Document} {flush : Bool} {ts : List Token}
    (hts : ∀ t ∈ ts, t.beginsNode = false) (hitem : flush = true → .item ∉ ts)
    (rest : List Token) : (tokensOf flush d ++ rest).head?.any ts.contains = false := by
  obtain ⟨t, us, hbegins, ht⟩ := tokensOf_begins flush d
  rw [hbegins, List.cons_append, List.head?_cons, Option.any_some, ← Bool.not_eq_true,
    List.contains_iff_mem]
  intro hmem
  rcases ht with ht | ⟨hflush, rfl⟩
  · rw [hts t hmem] at ht
    cases ht
  · exact hitem hflush hmem

/-- Whether a document is read as nodes that represent it. -/
def ReadsTree (d : Document) : Prop :=
  ∀ {f : Frame} {r : Reading} {rest : List Token} {flush flush' : Bool} {fuel : Nat},
    f.fault = none → r.tokens = tokensOf flush d ++ rest → (flush = true → flush' = true) →
    (flush = true → rest.head? ≠ some .item) → 2 * (r.tokens.length + flush.toNat) ≤ fuel →
    r.depth + d.height ≤ deepest → GivesNode (f.node true flush' fuel) r rest d

/-- The items of a list, behind which `closing` may stand. -/
theorem gives_items (closing : List Token) {step : Nat → Step (List Nat)} {ts : List Token}
    {items : List Document} (hf : f.fault = none) (hts : ∀ t ∈ ts, t.beginsNode = false)
    (hitem : ∀ r rest fuel, r.tokens = .item :: rest → (step (fuel + 1)).run r =
      (do let n ← f.nodeUnless ts true false fuel; return n :: (← step fuel)).run
        (r.extend rest #[]))
    (hend : ∀ r fuel, r.tokens = closing ++ rest →
      (step (fuel + 1)).run r = .ok ([], r.extend rest #[]))
    (hitems : ∀ d ∈ items, ReadsTree d)
    (htokens : r.tokens = tokensOfItems items ++ (closing ++ rest))
    (hfuel : 2 * r.tokens.length + 1 ≤ fuel)
    (hdepth : r.depth + Document.heightOfItems items ≤ deepest) :
    GivesItems (step fuel) r rest items := by
  induction items generalizing r fuel with
  | nil =>
    obtain ⟨fuel, rfl⟩ : ∃ k, fuel = k + 1 := ⟨fuel - 1, by omega⟩
    exact .nil (hend r fuel htokens)
  | cons d ds ih =>
    obtain ⟨fuel, rfl⟩ : ∃ k, fuel = k + 2 := ⟨fuel - 2, by
      rw [htokens, tokensOfItems] at hfuel
      simp only [List.cons_append, List.length_cons] at hfuel
      omega⟩
    rw [Document.heightOfItems] at hdepth
    have htokens' : r.tokens = .item ::
        (tokensOf false d ++ (tokensOfItems ds ++ (closing ++ rest))) := by
      rw [htokens, tokensOfItems, List.cons_append, List.append_assoc]
    have hlength := congrArg List.length htokens'
    rw [List.length_cons, List.length_append] at hlength
    have hnode : GivesNode (f.node true false fuel)
        (r.extend (tokensOf false d ++ (tokensOfItems ds ++ (closing ++ rest))) #[])
        (tokensOfItems ds ++ (closing ++ rest)) d := by
      refine hitems d List.mem_cons_self hf rfl (by simp) (by simp) ?_ ?_
      · simp only [Reading.extend, List.length_append, Bool.toNat_false] at hlength ⊢
        omega
      · simp only [Reading.extend]
        omega
    have hbegins := head?_any_eq_false (d := d) hts (fun h => absurd h Bool.false_ne_true)
      (tokensOfItems ds ++ (closing ++ rest))
    refine .after (hitem r _ (fuel + 1) htokens') (.cons (hnode.unless hf hbegins) fun more => ?_)
    refine ih (fun d hd => hitems d (List.mem_cons_of_mem _ hd)) rfl ?_ ?_
    · simp only [Reading.extend]
      omega
    · simp only [Reading.extend]
      omega

/-- A value behind its mark. -/
theorem GivesNode.valueUnless {block flush : Bool} {ts us : List Token} {d : Document}
    (hf : f.fault = none) (hvalue : r.tokens = .value :: us)
    (h : GivesNode (f.node block flush fuel) (r.extend us #[]) rest d)
    (hts : us.head?.any ts.contains = false) :
    GivesNode (f.valueUnless ts block flush (fuel + 2)) r rest d := by
  refine GivesNode.after ?_ (h.unless hf hts)
  have hat := run_at? (r := r) hf [.value]
  rw [hvalue, List.head?_cons, Option.any_some] at hat
  rw [Frame.valueUnless, run_bind_ok hat, if_pos (by decide), run_bind_ok (run_advance hvalue)]

/-- A key behind its mark. -/
theorem givesNode_key {block flush plain : Bool} {ts us : List Token} {k : Text}
    (hf : f.fault = none) (hkey : r.tokens = .scalar plain k :: us)
    (htag : scalarTag none plain k = .text)
    (hts : ts.contains (.scalar plain k) = false) :
    GivesNode (f.nodeUnless ts block flush (fuel + 2)) r us (.text k) := by
  refine .unless hf (givesNode_text (Nat.succ_pos _) hkey htag) ?_
  rw [hkey]
  exact hts

/-- An entry behind its mark, and the further entries. -/
theorem GivesEntries.entry {block flush plain : Bool} {z : Step (List (Nat × Nat))}
    {ks vs ts us : List Token} {k : Text} {d : Document} {entries : List (Text × Document)}
    (hf : f.fault = none) (htokens : r.tokens = .scalar plain k :: .value :: ts)
    (htag : scalarTag none plain k = .text) (hks : ks.contains (.scalar plain k) = false)
    (hvs : ts.head?.any vs.contains = false)
    (hvalue : ∀ s : Reading, s.tokens = ts → s.depth = r.depth →
      GivesNode (f.node block flush fuel) s us d)
    (hmore : ∀ s : Reading, s.tokens = us → s.depth = r.depth → GivesEntries z s rest entries) :
    GivesEntries (do
      let k ← f.nodeUnless ks block flush (fuel + 2)
      let v ← f.valueUnless vs block flush (fuel + 2)
      return (k, v) :: (← z)) r rest ((k, d) :: entries) :=
  .cons (givesNode_key hf htokens htag hks)
    (fun _ => .valueUnless hf rfl (hvalue _ rfl rfl) hvs) fun _ => hmore _ rfl rfl

/-- The entries of a mapping in block style, and its end. -/
theorem gives_blockEntries {entries : List (Text × Document)} (hf : f.fault = none)
    (hvalues : ∀ e ∈ entries, ReadsTree e.2)
    (htokens : r.tokens = tokensOfEntries entries ++ .blockEnd :: rest)
    (hfuel : 2 * r.tokens.length + 1 ≤ fuel)
    (hdepth : r.depth + Document.heightOfEntries entries ≤ deepest) :
    GivesEntries (f.blockEntries fuel) r rest entries := by
  have hat := fun r : Reading => run_at? (r := r) hf [.key]
  induction entries generalizing r fuel with
  | nil =>
    obtain ⟨fuel, rfl⟩ : ∃ k, fuel = k + 1 := ⟨fuel - 1, by omega⟩
    have hat := hat r
    rw [htokens, tokensOfEntries, List.nil_append, List.head?_cons, Option.any_some] at hat
    refine .nil ?_
    rw [Frame.blockEntries, run_bind_ok hat, if_neg (by decide),
      run_bind_ok (run_expect hf htokens)]
    rfl
  | cons e es ih =>
    obtain ⟨k, d⟩ := e
    rw [Document.heightOfEntries] at hdepth
    generalize htail : tokensOfEntries es ++ .blockEnd :: rest = us at *
    have htokens' : r.tokens = .key :: .scalar (Style.of k == .plain) k :: .value ::
        (tokensOf (isSimpleKey k) d ++ us) := by
      rw [htokens, tokensOfEntries, ← htail]
      simp only [List.cons_append, List.append_assoc]
    have hlength := congrArg List.length htokens'
    simp only [List.length_cons, List.length_append] at hlength
    obtain ⟨fuel, rfl⟩ : ∃ k, fuel = k + 3 := ⟨fuel - 3, by omega⟩
    have hat := hat r
    rw [htokens', List.head?_cons, Option.any_some] at hat
    have hblock : ∀ t ∈ [Token.key, .value, .blockEnd], t.beginsNode = false := by decide
    have hnext : us.head? ≠ some .item := by
      rw [← htail]
      cases es with
      | nil => simp [tokensOfEntries]
      | cons e es => simp [tokensOfEntries]
    have hvalue : ∀ s : Reading, s.tokens = tokensOf (isSimpleKey k) d ++ us →
        s.depth = r.depth → GivesNode (f.node true true fuel) s us d := by
      intro s hs hsdepth
      have hdeep : s.depth + d.height ≤ deepest := by omega
      refine hvalues (k, d) List.mem_cons_self hf hs (fun _ => rfl) (fun _ => hnext) ?_ hdeep
      have := (isSimpleKey k).toNat_le
      rw [hs, List.length_append]
      omega
    have hmore : ∀ s : Reading, s.tokens = us → s.depth = r.depth →
        GivesEntries (f.blockEntries (fuel + 2)) s rest es := by
      intro s hs hsdepth
      refine ih (fun e he => hvalues e (List.mem_cons_of_mem _ he)) hs ?_ (by omega)
      rw [hs]
      omega
    have hkey : [Token.key, .value, .blockEnd].contains (.scalar (Style.of k == .plain) k) =
        false := by simp
    refine .after ?_ (.entry hf rfl (scalarTag_of_style k) hkey
      (head?_any_eq_false hblock (fun _ => by decide) us) hvalue hmore)
    rw [Frame.blockEntries, run_bind_ok hat, if_pos (by decide),
      run_bind_ok (run_advance htokens')]

theorem gives_flushItems {items : List Document} (hf : f.fault = none)
    (hitems : ∀ d ∈ items, ReadsTree d) (htokens : r.tokens = tokensOfItems items ++ rest)
    (hrest : rest.head? ≠ some .item) (hfuel : 2 * r.tokens.length + 1 ≤ fuel)
    (hdepth : r.depth + Document.heightOfItems items ≤ deepest) :
    GivesItems (f.flushItems fuel) r rest items := by
  have hts : ∀ t ∈ [Token.item, .key, .value, .blockEnd], t.beginsNode = false := by decide
  refine gives_items [] hf hts ?_ ?_
    hitems htokens hfuel hdepth
  · intro r rest fuel h
    have hat := run_at? (r := r) hf [.item]
    rw [h, List.head?_cons, Option.any_some] at hat
    rw [Frame.flushItems, run_bind_ok hat, if_pos (by decide), run_bind_ok (run_advance h)]
  · intro r fuel h
    rw [List.nil_append] at h
    have hend : r.tokens.head?.any [Token.item].contains = false := by
      rw [h, Option.any_eq_false]
      rintro t ht
      have hne : t ≠ .item := by
        rintro rfl
        exact hrest ht
      simpa using hne
    have hat := run_at? (r := r) hf [.item]
    rw [hend] at hat
    rw [Frame.flushItems, run_bind_ok hat, if_neg Bool.false_ne_true, Reading.extend,
      Array.append_empty, ← h]
    rfl

theorem gives_blockItems {items : List Document} (hf : f.fault = none)
    (hitems : ∀ d ∈ items, ReadsTree d)
    (htokens : r.tokens = tokensOfItems items ++ .blockEnd :: rest)
    (hfuel : 2 * r.tokens.length + 1 ≤ fuel)
    (hdepth : r.depth + Document.heightOfItems items ≤ deepest) :
    GivesItems (f.blockItems fuel) r rest items := by
  have hts : ∀ t ∈ [Token.item, .blockEnd], t.beginsNode = false := by decide
  refine gives_items [.blockEnd] hf hts ?_ ?_
    hitems htokens hfuel hdepth
  · intro r rest fuel h
    have hat := run_at? (r := r) hf [.item]
    rw [h, List.head?_cons, Option.any_some] at hat
    rw [Frame.blockItems, run_bind_ok hat, if_pos (by decide), run_bind_ok (run_advance h)]
  · intro r fuel h
    have hat := run_at? (r := r) hf [.item]
    rw [h, List.singleton_append, List.head?_cons, Option.any_some] at hat
    rw [Frame.blockItems, run_bind_ok hat, if_neg (by decide), run_bind_ok (run_expect hf h)]
    rfl

/-- An empty collection between brackets. -/
theorem gives_flowItems_nil (hf : f.fault = none) (htokens : r.tokens = .flowSequenceEnd :: rest) :
    GivesItems (f.flowItems true (fuel + 1)) r rest [] := by
  have hat := run_at? (r := r) hf [.flowSequenceEnd]
  rw [htokens, List.head?_cons, Option.any_some] at hat
  refine .nil ?_
  rw [Frame.flowItems, run_bind_ok hat, if_pos (by decide), run_bind_ok (run_advance htokens)]
  rfl

theorem gives_flowEntries_nil (hf : f.fault = none)
    (htokens : r.tokens = .flowMappingEnd :: rest) :
    GivesEntries (f.flowEntries true (fuel + 1)) r rest [] := by
  have hat := run_at? (r := r) hf [.flowMappingEnd]
  rw [htokens, List.head?_cons, Option.any_some] at hat
  refine .nil ?_
  rw [Frame.flowEntries, run_bind_ok hat, if_pos (by decide), run_bind_ok (run_advance htokens)]
  rfl

/-! ## Documents as trees -/

/-- What has tokens has fuel for two steps. -/
theorem two_le_of_tokens {d : Document} {flush : Bool}
    (htokens : r.tokens = tokensOf flush d ++ rest)
    (hfuel : 2 * (r.tokens.length + flush.toNat) ≤ fuel) : 2 ≤ fuel := by
  obtain ⟨t, ts, hbegins, -⟩ := tokensOf_begins flush d
  rw [htokens, hbegins, List.cons_append, List.length_cons] at hfuel
  omega

theorem readsTree_text (x : Text) : ReadsTree (.text x) := by
  intro f r rest flush flush' fuel hf htokens _ _ hfuel _
  have htwo := two_le_of_tokens htokens hfuel
  exact givesNode_text (by omega) htokens (scalarTag_of_style x)

theorem readsTree_bool (b : Bool) : ReadsTree (.bool b) := by
  intro f r rest flush flush' fuel hf htokens _ _ hfuel _
  have htwo := two_le_of_tokens htokens hfuel
  exact givesNode_bool (by omega) htokens

theorem readsTree_list {items : List Document} (h : ∀ d ∈ items, ReadsTree d) :
    ReadsTree (.list items) := by
  intro f r rest flush flush' fuel hf htokens hflush hrest hfuel hdepth
  obtain ⟨fuel, rfl⟩ := Nat.exists_eq_add_of_le' (two_le_of_tokens htokens hfuel)
  rw [Document.height] at hdepth
  have hdeep : r.depth < deepest := by omega
  cases items with
  | nil => exact givesNode_flowSequence htokens hdeep (gives_flowItems_nil hf rfl)
  | cons d ds =>
    have hinside : (r.inside .sequence).depth + Document.heightOfItems (d :: ds) ≤ deepest := by
      simp only [Reading.inside]
      omega
    cases flush with
    | true =>
      obtain rfl : flush' = true := hflush rfl
      refine givesNode_flushSequence htokens hdeep
        (gives_flushItems hf h htokens (hrest rfl) ?_ hinside)
      simp only [Reading.inside, Bool.toNat_true] at hfuel ⊢
      omega
    | false =>
      have hblock : r.tokens =
          .blockSequence :: (tokensOfItems (d :: ds) ++ .blockEnd :: rest) := by
        rw [htokens, tokensOf, List.isEmpty_cons, if_neg Bool.false_ne_true,
          if_neg Bool.false_ne_true, List.cons_append, List.append_assoc, List.singleton_append]
      refine givesNode_blockSequence hblock hdeep (gives_blockItems hf h rfl ?_ hinside)
      rw [hblock, List.length_cons] at hfuel
      simp only [Reading.extend]
      omega

theorem readsTree_mapping {entries : List (Text × Document)} (h : ∀ e ∈ entries, ReadsTree e.2) :
    ReadsTree (.mapping entries) := by
  intro f r rest flush flush' fuel hf htokens hflush hrest hfuel hdepth
  obtain ⟨fuel, rfl⟩ := Nat.exists_eq_add_of_le' (two_le_of_tokens htokens hfuel)
  rw [Document.height] at hdepth
  have hdeep : r.depth < deepest := by omega
  cases entries with
  | nil => exact givesNode_flowMapping htokens hdeep (gives_flowEntries_nil hf rfl)
  | cons e es =>
    have hinside : (r.inside .mapping).depth + Document.heightOfEntries (e :: es) ≤ deepest := by
      simp only [Reading.inside]
      omega
    have hblock : r.tokens = .blockMapping :: (tokensOfEntries (e :: es) ++ .blockEnd :: rest) := by
      rw [htokens, tokensOf, List.isEmpty_cons, if_neg Bool.false_ne_true, List.cons_append,
        List.append_assoc, List.singleton_append]
    refine givesNode_blockMapping hblock hdeep (gives_blockEntries hf h rfl ?_ hinside)
    rw [hblock, List.length_cons] at hfuel
    simp only [Reading.extend]
    omega

/-- The tokens of a document in block style are read as nodes that represent it. -/
theorem reads_tree (d : Document) : ReadsTree d := by
  induction d using Document.induction with
  | text x => exact readsTree_text x
  | bool b => exact readsTree_bool b
  | list items ih => exact readsTree_list ih
  | mapping entries ih => exact readsTree_mapping ih

end

/-! ## Whole documents -/

/-- The graph of a document, behind which at most marks for its end stand. -/
theorem ofTokens?_of_givesNode {t : Token} {ts rest : List Token} {d : Document}
    (ht : t.isOutside = false) (hrest : ∀ t ∈ rest, t = .documentEnd)
    (h : GivesNode ((⟨none, usualHandles⟩ : Frame).node true false (2 * (t :: ts).length + 2))
      { tokens := t :: ts } rest d) :
    ∃ ns, Graph.ofTokens? ⟨t :: ts, none⟩ = .ok (some ⟨ns, 0⟩) ∧ Represents ns 0 d := by
  obtain ⟨more, hrun, hd⟩ := h
  refine ⟨#[] ++ more, ?_, hd⟩
  have hpeek : (⟨none, usualHandles⟩ : Frame).peek.run { tokens := t :: ts } =
      .ok (some t, { tokens := t :: ts }) := run_peek _ rfl
  have hcontent : (Graph.contentOf ⟨none, usualHandles⟩ (t :: ts) false).run { tokens := t :: ts } =
      .ok (0, { tokens := rest, nodes := #[] ++ more }) := by
    rw [Graph.contentOf, run_bind_ok hpeek]
    exact hrun
  have hdrop : rest.dropWhile (· == Token.documentEnd) = [] := by
    rw [← List.append_nil rest, List.dropWhile_append_of_pos fun t ht => by simp [hrest t ht]]
    rfl
  have hgraph : Graph.ofTokensFrom ⟨none, usualHandles⟩ (t :: ts) false =
      .ok ⟨#[] ++ more, 0⟩ := by
    rw [Graph.ofTokensFrom, hcontent]
    simp only [bind, Except.bind, hdrop]
    rfl
  simp only [Graph.ofTokens?, ht, Bool.false_and, Bool.false_eq_true, if_false, hgraph]
  rfl

/-- The tokens of a document that is not too deep are those of a graph that represents it. -/
theorem exists_graph {d : Document} {rest : List Token} (hrest : ∀ t ∈ rest, t = .documentEnd)
    (hheight : d.height ≤ deepest) :
    ∃ ns, Graph.ofTokens? ⟨tokensOf false d ++ rest, none⟩ = .ok (some ⟨ns, 0⟩) ∧
      Represents ns 0 d := by
  obtain ⟨t, ts, hts, ht⟩ := tokensOf_begins false d
  have hinside : t.isOutside = false := by
    have ht : t.beginsNode = true := by simpa using ht
    cases t <;> first | rfl | cases ht
  have hcons : tokensOf false d ++ rest = t :: (ts ++ rest) := by rw [hts]; rfl
  rw [hcons]
  refine ofTokens?_of_givesNode hinside hrest (reads_tree d rfl hcons.symm nofun nofun ?_ ?_)
  · rw [Bool.toNat_false]
    exact Nat.le_add_right ..
  · simpa using hheight

end ShapeAlgebra.Yaml
