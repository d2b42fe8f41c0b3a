import ShapeAlgebra.Proofs.Yaml.Nodes
import ShapeAlgebra.Yaml.Node.Unfolding

/-!
# The data of documents

The nodes that represent a document stand for its data. Collections are filled in rounds: what is in
a collection has higher numbers, so that the collections that wait in a round have higher numbers
than those of the round before. The data is then found in one pass from the last node to the first.

Results:

* `Yaml.Represents.unique`: a node represents one document at most.
* `Yaml.Filling.exists_fillAll`: all collections that were met are filled.
* `Yaml.Represents.toData_eq`: a graph that represents a document has its data.
-/

namespace ShapeAlgebra

/-! ## Entries with distinct keys -/

section

variable {κ ν : Type} {same : κ → κ → Bool}

theorem Data.insertBy_of_new {entries : List (κ × ν)} {key : κ}
    (h : ∀ p ∈ entries, same p.1 key = false) (value : ν) :
    Data.insertBy same entries key value = entries ++ [(key, value)] := by
  induction entries with
  | nil => rfl
  | cons p ps ih =>
    obtain ⟨k, v⟩ := p
    have hp : same k key = false := h _ List.mem_cons_self
    rw [Data.insertBy, hp, if_neg Bool.false_ne_true,
      ih fun q hq => h q (List.mem_cons_of_mem _ hq), List.cons_append]

/-- Entries whose keys are distinct are the mapping that they make up. -/
theorem Data.ofPairsBy_of_pairwise {pairs : List (κ × ν)}
    (h : pairs.Pairwise fun p q => same p.1 q.1 = false) : Data.ofPairsBy same pairs = pairs := by
  have hfold : ∀ entries : List (κ × ν), (entries ++ pairs).Pairwise (fun p q =>
      same p.1 q.1 = false) → pairs.foldl (fun es p => Data.insertBy same es p.1 p.2) entries =
        entries ++ pairs := by
    induction pairs with
    | nil => intro entries _; rw [List.foldl_nil, List.append_nil]
    | cons p ps ih =>
      intro entries hall
      obtain ⟨-, -, hcross⟩ := List.pairwise_append.1 hall
      rw [List.foldl_cons, Data.insertBy_of_new fun q hq => hcross q hq p List.mem_cons_self]
      have happend : entries ++ p :: ps = entries ++ [p] ++ ps := by simp
      rw [happend] at hall ⊢
      exact ih (List.pairwise_cons.1 h).2 _ hall
  exact hfold [] h

end

namespace Yaml

/-! ## One document for one node -/

section

variable {ns : Nodes} {n : Nat}

theorem RepresentItems.unique {ms : List Nat} {items items' : List Document}
    (h : RepresentItems ns n ms items) (h' : RepresentItems ns n ms items')
    (hunique : ∀ d ∈ items, ∀ m d', Represents ns m d → Represents ns m d' → d = d') :
    items = items' := by
  induction items generalizing ms items' with
  | nil =>
    rw [RepresentItems] at h
    subst h
    cases items' with
    | nil => rfl
    | cons d ds =>
      rw [RepresentItems] at h'
      obtain ⟨_, _, hms, -⟩ := h'
      cases hms
  | cons d ds ih =>
    rw [RepresentItems] at h
    obtain ⟨m, ms, rfl, hm, hd, hds⟩ := h
    cases items' with
    | nil => cases h'
    | cons d' ds' =>
      rw [RepresentItems] at h'
      obtain ⟨_, _, hms, -, hd', hds'⟩ := h'
      cases hms
      rw [hunique d List.mem_cons_self m d' hd hd',
        ih hds hds' fun d hd => hunique d (List.mem_cons_of_mem _ hd)]

theorem RepresentEntries.unique {ms : List (Nat × Nat)} {entries entries' : List (Text × Document)}
    (h : RepresentEntries ns n ms entries) (h' : RepresentEntries ns n ms entries')
    (hunique : ∀ e ∈ entries, ∀ m d', Represents ns m e.2 → Represents ns m d' → e.2 = d') :
    entries = entries' := by
  induction entries generalizing ms entries' with
  | nil =>
    rw [RepresentEntries] at h
    subst h
    cases entries' with
    | nil => rfl
    | cons e es =>
      obtain ⟨k, d⟩ := e
      rw [RepresentEntries] at h'
      obtain ⟨_, _, _, hms, -⟩ := h'
      cases hms
  | cons e es ih =>
    obtain ⟨k, d⟩ := e
    rw [RepresentEntries] at h
    obtain ⟨i, m, ms, rfl, -, -, hk, hd, hes⟩ := h
    cases entries' with
    | nil => cases h'
    | cons e' es' =>
      obtain ⟨k', d'⟩ := e'
      rw [RepresentEntries] at h'
      obtain ⟨_, _, _, hms, -, -, hk', hd', hes'⟩ := h'
      cases hms
      rw [hk] at hk'
      cases hk'
      have hvalue : d = d' := hunique _ List.mem_cons_self m d' hd hd'
      rw [hvalue, ih hes hes' fun e he => hunique e (List.mem_cons_of_mem _ he)]

theorem boolWord_injective {b b' : Bool} (h : boolWord b = boolWord b') : b = b' := by
  cases b <;> cases b' <;> first | rfl | exact absurd h (by decide)

/-- A node represents one document at most. -/
theorem Represents.unique {d d' : Document} (h : Represents ns n d) (h' : Represents ns n d') :
    d = d' := by
  induction d using Document.induction generalizing n d' with
  | text t =>
    rw [Represents] at h
    cases d' with
    | text t' =>
      rw [Represents, h] at h'
      cases h'
      rfl
    | _ => rw [Represents, h] at h'; simp at h'
  | bool b =>
    rw [Represents] at h
    cases d' with
    | bool b' =>
      rw [Represents, h] at h'
      have hword : Text.ofChars (boolWord b) = Text.ofChars (boolWord b') := by simpa using h'
      rw [boolWord_injective (Text.ofChars_injective hword)]
    | _ => rw [Represents, h] at h'; simp at h'
  | list items ih =>
    rw [Represents] at h
    obtain ⟨ms, hn, hitems⟩ := h
    cases d' with
    | list items' =>
      rw [Represents, hn] at h'
      obtain ⟨ms', hms, hitems'⟩ := h'
      cases hms
      rw [hitems.unique hitems' fun d hd m d' h h' => ih d hd h h']
    | _ => rw [Represents, hn] at h'; simp at h'
  | mapping entries ih =>
    rw [Represents] at h
    obtain ⟨ms, hn, hentries⟩ := h
    cases d' with
    | mapping entries' =>
      rw [Represents, hn] at h'
      obtain ⟨ms', hms, hentries'⟩ := h'
      cases hms
      rw [hentries.unique hentries' fun e he m d' h h' => ih e he h h']
    | _ => rw [Represents, hn] at h'; simp at h'

end

/-! ## What nodes stand for -/

/-- Whether a document is a collection. -/
def isCollection : Document → Bool
  | .list _ | .mapping _ => true
  | _ => false

/-- The keys and values of entries by the numbers of their nodes. -/
def keyed (entries : List (Text × Document)) (ms : List (Nat × Nat)) : List (Key × Nat) :=
  List.zipWith (fun e m => (⟨.text e.1, some m.1⟩, m.2)) entries ms

namespace Filling

/-- Whether it is known what a node stands for. -/
def Met (f : Filling) (n : Nat) : Prop := ∃ p, f.part? n = some p

/-- Whether a part is what a node that represents a document stands for when it is filled. -/
def Stands (f : Filling) (n : Nat) : Document → Part → Prop
  | .text t, p => p = .value (.text t)
  | .bool b, p => p = .value (.bool b)
  | .list items, p => ∃ ms, p = .list ms ∧ RepresentItems f.nodes n ms items ∧ ∀ m ∈ ms, f.Met m
  | .mapping entries, p => ∃ ms, p = .mapping (keyed entries ms) ∧
      RepresentEntries f.nodes n ms entries ∧ ∀ m ∈ ms, f.Met m.2

/-- Whether a node represents a document whose keys are distinct. -/
structure IsTree (ns : Nodes) (n : Nat) (d : Document) : Prop where
  represents : Represents ns n d
  distinct : d.HasDistinctKeys

/-- What holds between the steps of filling: what was met represents documents, and stands for them
but for the `current` collections and those that wait. -/
structure Sound (ns : Nodes) (current : List Nat) (f : Filling) : Prop where
  nodes : f.nodes = ns
  size : f.parts.size = ns.size
  trees : ∀ n, f.Met n → ∃ d, IsTree ns n d
  pending : ∀ n, n ∈ current ∨ n ∈ f.waiting → ∃ d, IsTree ns n d ∧ isCollection d = true
  stands : ∀ n p d, f.part? n = some p → Represents ns n d →
    f.Stands n d p ∨ n ∈ current ∨ n ∈ f.waiting

/-- What a step of filling from `f` to `f'` does: it meets further nodes, and what waits then and
did not wait before has at least the number `low`. -/
structure Grows (ns : Nodes) (current : List Nat) (low : Nat) (f f' : Filling) : Prop where
  sound : f'.Sound ns current
  met : ∀ n, f.Met n → f'.Met n
  waiting : ∀ n ∈ f'.waiting, n ∈ f.waiting ∨ low ≤ n

section

variable {ns : Nodes} {current : List Nat} {low n : Nat} {f f' f'' : Filling} {d : Document}
  {p : Part}

theorem Grows.refl (h : f.Sound ns current) : Grows ns current low f f :=
  ⟨h, fun _ h => h, fun _ h => .inl h⟩

theorem Grows.trans (h : Grows ns current low f f') (h' : Grows ns current low f' f'') :
    Grows ns current low f f'' :=
  ⟨h'.sound, fun n hn => h'.met n (h.met n hn), fun n hn =>
    (h'.waiting n hn).elim (h.waiting n) .inr⟩

theorem Stands.mono (h : f.Stands n d p) (hnodes : f'.nodes = f.nodes)
    (hmet : ∀ n, f.Met n → f'.Met n) : f'.Stands n d p := by
  cases d with
  | text t => exact h
  | bool b => exact h
  | list items =>
    obtain ⟨ms, hp, hitems, hms⟩ := h
    exact ⟨ms, hp, by rwa [hnodes], fun m hm => hmet m (hms m hm)⟩
  | mapping entries =>
    obtain ⟨ms, hp, hentries, hms⟩ := h
    exact ⟨ms, hp, by rwa [hnodes], fun m hm => hmet m.2 (hms m hm)⟩

/-! ## Meeting nodes -/

theorem part?_note (h : n < f.parts.size) (p : Part) (i : Nat) :
    part? { f with parts := f.parts.setIfInBounds n (some p) } i =
      if i = n then some p else f.part? i := by
  simp only [part?, Array.getElem?_setIfInBounds]
  by_cases hi : n = i
  · subst hi
    simp [h]
  · rw [if_neg hi, if_neg fun h => hi h.symm]

theorem value_of_scalar {tag : Tag} {t : Text} (h : ns[n]? = some ⟨tag, .scalar t⟩)
    (htag : [Tag.merge, .defaultValue, .unknown].contains tag = false) :
    ns.value n = scalarValue tag t := by
  have htext : ns.text n = .ok t := by
    rw [Nodes.text, Nodes.textFrom, h]
    rfl
  rw [Nodes.value, h]
  simp only [htag, htext]
  rfl

theorem boolOf_boolWord (b : Bool) : boolOf (Text.ofChars (boolWord b)) = .ok b := by
  cases b <;> rfl

/-- The value of a node that represents a scalar. -/
theorem value_of_represents (h : Represents ns n d) (hd : isCollection d = false) :
    (ns.tag? n).bind Part.empty? = none ∧ ∃ v, ns.value n = .ok v ∧
      ∀ f, Stands f n d (.value v) := by
  cases d with
  | text t =>
    rw [Represents] at h
    refine ⟨by rw [Nodes.tag?, h]; rfl, .text t, ?_, fun f => rfl⟩
    rw [value_of_scalar h (by decide), scalarValue_text]
  | bool b =>
    rw [Represents] at h
    refine ⟨by rw [Nodes.tag?, h]; rfl, .bool b, ?_, fun f => rfl⟩
    rw [value_of_scalar h (by decide), scalarValue, boolOf_boolWord]
    rfl
  | list items => cases hd
  | mapping entries => cases hd

theorem empty_of_represents (h : Represents ns n d) (hd : isCollection d = true) :
    ∃ p, (ns.tag? n).bind Part.empty? = some p := by
  cases d with
  | text t => cases hd
  | bool b => cases hd
  | list items =>
    rw [Represents] at h
    obtain ⟨ms, hn, -⟩ := h
    exact ⟨.list [], by rw [Nodes.tag?, hn]; rfl⟩
  | mapping entries =>
    rw [Represents] at h
    obtain ⟨ms, hn, -⟩ := h
    exact ⟨.mapping [], by rw [Nodes.tag?, hn]; rfl⟩

/-- Noting what one more node stands for. -/
theorem Sound.note (h : f.Sound ns current) (hn : IsTree ns n d) {waiting current' : List Nat}
    (hpending : ∀ i, i ∈ current' ∨ i ∈ waiting → ∃ d, IsTree ns i d ∧ isCollection d = true)
    (hothers : ∀ i, i ≠ n → i ∈ current ∨ i ∈ f.waiting → i ∈ current' ∨ i ∈ waiting)
    (hstands : f.Stands n d p ∨ n ∈ current' ∨ n ∈ waiting) :
    Sound ns current' { f with parts := f.parts.setIfInBounds n (some p), waiting } ∧
      (∀ i, f.Met i → Met { f with parts := f.parts.setIfInBounds n (some p), waiting } i) ∧
      Met { f with parts := f.parts.setIfInBounds n (some p), waiting } n ∧
      part? { f with parts := f.parts.setIfInBounds n (some p), waiting } n = some p := by
  have hsize : n < f.parts.size := by
    rw [h.size]
    exact hn.represents.lt_size
  have hpart : ∀ i, part? { f with parts := f.parts.setIfInBounds n (some p), waiting } i =
      if i = n then some p else f.part? i := part?_note hsize p
  have hnew : part? { f with parts := f.parts.setIfInBounds n (some p), waiting } n = some p := by
    rw [hpart, if_pos rfl]
  generalize hf' : ({ f with parts := f.parts.setIfInBounds n (some p), waiting } : Filling) = f'
    at hpart hnew
  have hnodes : f'.nodes = f.nodes := by rw [← hf']
  have hwaiting : f'.waiting = waiting := by rw [← hf']
  have hmet : ∀ i, f.Met i → f'.Met i := by
    rintro i ⟨q, hq⟩
    by_cases hi : i = n
    · exact ⟨p, by rw [hpart, if_pos hi]⟩
    · exact ⟨q, by rw [hpart, if_neg hi, hq]⟩
  refine ⟨⟨hnodes.trans h.nodes, ?_, ?_, ?_, ?_⟩, hmet, ⟨p, hnew⟩, hnew⟩
  · rw [← hf', ← h.size]
    exact Array.size_setIfInBounds
  · rintro i ⟨q, hq⟩
    by_cases hi : i = n
    · exact ⟨d, by rwa [hi]⟩
    · rw [hpart, if_neg hi] at hq
      exact h.trees i ⟨q, hq⟩
  · rwa [hwaiting]
  · intro i q d' hq hd'
    rw [hwaiting]
    by_cases hi : i = n
    · subst hi
      rw [hnew, Option.some.injEq] at hq
      rw [← hq, hd'.unique hn.represents]
      exact hstands.imp_left fun h => h.mono hnodes hmet
    · rw [hpart, if_neg hi] at hq
      rcases h.stands i q d' hq hd' with hstands | hwaits
      · exact .inl (hstands.mono hnodes hmet)
      · exact .inr (hothers i hi hwaits)

theorem run_meetNew_empty (h : (f.nodes.tag? n).bind Part.empty? = some p) :
    (meetNew n).run f = .ok (p, { f with
      parts := f.parts.setIfInBounds n (some p), waiting := n :: f.waiting }) := by
  have hget : (get : Fill Filling).run f = .ok (f, f) := rfl
  rw [meetNew, run_bind_ok hget]
  simp only [h]
  rfl

theorem run_meetNew_value {v : Data} (h : (f.nodes.tag? n).bind Part.empty? = none)
    (hv : f.nodes.value n = .ok v) :
    (meetNew n).run f = .ok (.value v, { f with
      parts := f.parts.setIfInBounds n (some (.value v)), waiting := f.waiting }) := by
  have hget : (get : Fill Filling).run f = .ok (f, f) := rfl
  rw [meetNew, run_bind_ok hget]
  simp only [h, hv]
  rfl

/-- A node that represents a document can be met. -/
theorem exists_meet (h : f.Sound ns current) (hn : IsTree ns n d) {low : Nat} (hlow : low ≤ n) :
    ∃ p f', (meet n).run f = .ok (p, f') ∧ Grows ns current low f f' ∧ f'.Met n ∧
      ∀ t, d = .text t → p = .value (.text t) := by
  cases hpart : f.part? n with
  | some p =>
    refine ⟨p, f, meet_of_known hpart, .refl h, ⟨p, hpart⟩, ?_⟩
    rintro t rfl
    rcases h.stands n p _ hpart hn.represents with hp | hwaits
    · exact hp
    · obtain ⟨d', hd', hcollection⟩ := h.pending n hwaits
      rw [← hn.represents.unique hd'.represents] at hcollection
      cases hcollection
  | none =>
    have hmeet : (meet n).run f = (meetNew n).run f := by rw [run_meet, hpart]
    have hnodes := h.nodes
    cases hd : isCollection d with
    | true =>
      obtain ⟨p, hp⟩ := empty_of_represents hn.represents hd
      rw [← hnodes] at hp
      have hpending : ∀ i, i ∈ current ∨ i ∈ n :: f.waiting →
          ∃ d, IsTree ns i d ∧ isCollection d = true := by
        intro i hi
        rcases hi with hi | hi
        · exact h.pending i (.inl hi)
        · rcases List.mem_cons.1 hi with rfl | hi
          · exact ⟨d, hn, hd⟩
          · exact h.pending i (.inr hi)
      obtain ⟨hsound, hmet, hmet', -⟩ := h.note (p := p) hn hpending
        (fun i _ hi => hi.imp_right (List.mem_cons_of_mem n)) (.inr (.inr List.mem_cons_self))
      refine ⟨p, _, hmeet.trans (run_meetNew_empty hp), ⟨hsound, hmet, ?_⟩, hmet', ?_⟩
      · intro i hi
        rcases List.mem_cons.1 hi with rfl | hi
        · exact .inr hlow
        · exact .inl hi
      · rintro t rfl
        cases hd
    | false =>
      obtain ⟨hempty, v, hv, hstands⟩ := value_of_represents hn.represents hd
      rw [← hnodes] at hempty hv
      obtain ⟨hsound, hmet, hmet', -⟩ := h.note hn h.pending
        (fun _ _ hi => hi) (.inl (hstands f))
      refine ⟨_, _, hmeet.trans (run_meetNew_value hempty hv),
        ⟨hsound, hmet, fun i hi => .inl hi⟩, hmet', ?_⟩
      rintro t rfl
      exact hstands f

/-- The items of a list can be met. -/
theorem exists_meetAll {ms : List Nat} {items : List Document} (h : f.Sound ns current)
    (hitems : RepresentItems ns n ms items) (hdistinct : ∀ d ∈ items, d.HasDistinctKeys) :
    ∃ ps f', (ms.mapM meet).run f = .ok (ps, f') ∧ Grows ns current (n + 1) f f' ∧
      ∀ m ∈ ms, f'.Met m := by
  induction items generalizing ms f with
  | nil =>
    cases hitems
    exact ⟨[], f, rfl, .refl h, nofun⟩
  | cons d ds ih =>
    rw [RepresentItems] at hitems
    obtain ⟨m, ms, rfl, hm, hd, hds⟩ := hitems
    obtain ⟨p, f₁, hrun, hgrows, hmet, -⟩ :=
      exists_meet h ⟨hd, hdistinct d List.mem_cons_self⟩ (Nat.succ_le_of_lt hm)
    obtain ⟨ps, f₂, hrun', hgrows', hmet'⟩ :=
      ih hgrows.sound hds fun d hd => hdistinct d (List.mem_cons_of_mem _ hd)
    refine ⟨p :: ps, f₂, ?_, hgrows.trans hgrows', ?_⟩
    · rw [List.mapM_cons, run_bind_ok hrun, run_bind_ok hrun']
      rfl
    · exact List.forall_mem_cons.2 ⟨hgrows'.met m hmet, hmet'⟩

/-- A key can be met. -/
theorem exists_meetKey {k : Text} (h : f.Sound ns current) (hk : Represents ns n (.text k))
    (hlow : low ≤ n) : ∃ f', (meetKey n).run f = .ok (⟨.text k, some n⟩, f') ∧
      Grows ns current low f f' := by
  obtain ⟨p, f', hrun, hgrows, -, hp⟩ := exists_meet h ⟨hk, .text k⟩ hlow
  obtain rfl := hp k rfl
  refine ⟨f', ?_, hgrows⟩
  have hget : (get : Fill Filling).run f' = .ok (f', f') := rfl
  have hword : f'.nodes.isNanWord n = false := by
    rw [Represents] at hk
    have htag : f'.nodes.tag? n = some .text := by
      rw [hgrows.sound.nodes, Nodes.tag?, hk]
      rfl
    rw [Nodes.isNanWord, htag]
  rw [meetKey, run_bind_ok hrun]
  simp only
  rw [run_bind_ok hget, hword]
  rfl

/-- The entries of a mapping can be met. -/
theorem exists_meetEntries {ms : List (Nat × Nat)} {entries : List (Text × Document)}
    (h : f.Sound ns current) (hentries : RepresentEntries ns n ms entries)
    (hdistinct : ∀ e ∈ entries, e.2.HasDistinctKeys) :
    ∃ f', (ms.mapM meetEntry).run f = .ok (keyed entries ms, f') ∧
      Grows ns current (n + 1) f f' ∧ ∀ m ∈ ms, f'.Met m.2 := by
  induction entries generalizing ms f with
  | nil =>
    cases hentries
    exact ⟨f, rfl, .refl h, nofun⟩
  | cons e es ih =>
    obtain ⟨k, d⟩ := e
    rw [RepresentEntries] at hentries
    obtain ⟨i, m, ms, rfl, hi, hm, hk, hd, hes⟩ := hentries
    obtain ⟨f₁, hrun₁, hgrows₁⟩ := exists_meetKey (k := k) h hk (Nat.succ_le_of_lt hi)
    obtain ⟨p, f₂, hrun₂, hgrows₂, hmet₂, -⟩ := exists_meet hgrows₁.sound
      ⟨hd, hdistinct _ List.mem_cons_self⟩ (Nat.succ_le_of_lt hm)
    obtain ⟨f₃, hrun₃, hgrows₃, hmet₃⟩ :=
      ih hgrows₂.sound hes fun e he => hdistinct e (List.mem_cons_of_mem _ he)
    have hentry : (meetEntry (i, m)).run f = .ok ((⟨.text k, some i⟩, m), f₂) := by
      rw [meetEntry, run_bind_ok hrun₁, run_bind_ok hrun₂]
      rfl
    refine ⟨f₃, ?_, (hgrows₁.trans hgrows₂).trans hgrows₃, ?_⟩
    · rw [List.mapM_cons, run_bind_ok hentry, run_bind_ok hrun₃]
      rfl
    · exact List.forall_mem_cons.2 ⟨hgrows₃.met m hmet₂, hmet₃⟩

/-! ## Filling collections -/

theorem represents_key {ms : List (Nat × Nat)} {entries : List (Text × Document)}
    (h : RepresentEntries ns n ms entries) {e : Nat × Nat} (he : e ∈ ms) :
    ns.tag? e.1 = some .text := by
  induction entries generalizing ms with
  | nil =>
    cases h
    cases he
  | cons x es ih =>
    obtain ⟨k, d⟩ := x
    rw [RepresentEntries] at h
    obtain ⟨i, m, ms, rfl, -, -, hk, -, hes⟩ := h
    rcases List.mem_cons.1 he with rfl | he
    · rw [Nodes.tag?, hk]
      rfl
    · exact ih hes he

/-- The keys of a document are texts, none of which asks for merging. -/
theorem merged?_of_represents {ms : List (Nat × Nat)} {entries : List (Text × Document)}
    {tag : Tag} (hn : ns[n]? = some ⟨tag, .mapping ms⟩)
    (h : RepresentEntries ns n ms entries) : ns.merged? n = some ns := by
  have hentries : ns.entries? n = some ms := by
    rw [Nodes.entries?, hn]
    rfl
  have hkept : ns.setEntries n ms = ns := by
    refine Array.ext_getElem? fun i => ?_
    rw [Nodes.setEntries, Array.getElem?_modify]
    split
    · next hi =>
      rw [← hi, hn]
      rfl
    · rfl
  have hkeys : ∀ es : List (Nat × Nat), (∀ e ∈ es, ns.tag? e.1 = some .text) →
      ns.withTextKeys es = ns := by
    intro es hes
    induction es with
    | nil => rfl
    | cons e es ih =>
      have he := hes e List.mem_cons_self
      rw [Nodes.withTextKeys, List.foldl_cons, he, if_neg (by decide)]
      exact ih fun e he => hes e (List.mem_cons_of_mem _ he)
  rw [Nodes.merged?_of_no_marks hentries fun e he => ?_, hkept,
    hkeys ms fun e he => represents_key h he]
  rw [Nodes.isMerging, represents_key h he]
  rfl

theorem exists_of_mem_keyed {q : Key × Nat} {ms : List (Nat × Nat)}
    {entries : List (Text × Document)} (h : q ∈ keyed entries ms) :
    ∃ e ∈ entries, q.1.value = .text e.1 := by
  rw [keyed, ← List.map_uncurry_zip_eq_zipWith, List.mem_map] at h
  obtain ⟨⟨e, m⟩, hmem, rfl⟩ := h
  exact ⟨e, (List.of_mem_zip hmem).1, rfl⟩

theorem same_eq_false_of_ne {a b : Text} (h : a ≠ b) {x y : Key} (hx : x.value = .text a)
    (hy : y.value = .text b) : Key.same x y = false := by
  rw [Key.same, hx, hy]
  exact beq_eq_false_iff_ne.2 h

/-- Entries with distinct keys have distinct keys when they have been met. -/
theorem pairwise_keyed (ms : List (Nat × Nat)) {entries : List (Text × Document)}
    (h : (entries.map Prod.fst).Nodup) :
    (keyed entries ms).Pairwise fun p q => Key.same p.1 q.1 = false := by
  induction entries generalizing ms with
  | nil => exact .nil
  | cons e es ih =>
    cases ms with
    | nil => exact .nil
    | cons m ms =>
      rw [List.map_cons, List.nodup_cons] at h
      refine List.pairwise_cons.2 ⟨fun q hq => ?_, ih ms h.2⟩
      obtain ⟨x, hx, hvalue⟩ := exists_of_mem_keyed hq
      have hne : e.1 ≠ x.1 := fun heq => h.1 (heq ▸ List.mem_map_of_mem hx)
      exact same_eq_false_of_ne hne rfl hvalue

/-- A collection that was met can be filled. -/
theorem exists_fill (h : f.Sound ns (n :: current)) (hn : IsTree ns n d)
    (hd : isCollection d = true) : ∃ f', (fill n).run f = .ok ((), f') ∧
      Grows ns current (n + 1) f f' := by
  have hget : (get : Fill Filling).run f = .ok (f, f) := rfl
  have hnodes := h.nodes
  have hrepresents := hn.represents
  -- what is in it is met, and then the collection itself is noted
  have hnote : ∀ {f₁ p}, Grows ns (n :: current) (n + 1) f f₁ → f₁.Stands n d p →
      ∃ f₂, (note n p).run f₁ = .ok ((), f₂) ∧ Grows ns current (n + 1) f f₂ := by
    intro f₁ p hgrows hstands
    have hpending : ∀ i, i ∈ current ∨ i ∈ f₁.waiting →
        ∃ d, IsTree ns i d ∧ isCollection d = true := fun i hi =>
      hgrows.sound.pending i (hi.imp_left (List.mem_cons_of_mem n))
    obtain ⟨hsound, hmet, -⟩ := hgrows.sound.note hn hpending
      (fun i hi hi' => hi'.imp_left (List.mem_of_ne_of_mem hi)) (.inl hstands)
    exact ⟨_, rfl, hsound, fun i hi => hmet i (hgrows.met i hi), hgrows.waiting⟩
  cases d with
  | text t => cases hd
  | bool b => cases hd
  | list items =>
    rw [Represents] at hrepresents
    obtain ⟨ms, hms, hitems⟩ := hrepresents
    have hdistinct : ∀ d ∈ items, d.HasDistinctKeys := by
      cases hn.distinct
      assumption
    obtain ⟨ps, f₁, hrun, hgrows, hmet⟩ := exists_meetAll h hitems hdistinct
    obtain ⟨f₂, hnote, hgrows₂⟩ := hnote (p := .list ms) hgrows
      ⟨ms, rfl, by rwa [hgrows.sound.nodes], hmet⟩
    refine ⟨f₂, ?_, hgrows₂⟩
    rw [fill, run_bind_ok hget, hnodes, hms]
    simp only
    rw [run_bind_ok hrun, hnote]
  | mapping entries =>
    rw [Represents] at hrepresents
    obtain ⟨ms, hms, hentries⟩ := hrepresents
    obtain ⟨hkeys, hdistinct⟩ : (entries.map Prod.fst).Nodup ∧
        ∀ e ∈ entries, e.2.HasDistinctKeys := by
      cases hn.distinct
      exact ⟨‹_›, ‹_›⟩
    obtain ⟨f₁, hrun, hgrows, hmet⟩ := exists_meetEntries h hentries hdistinct
    obtain ⟨f₂, hnote, hgrows₂⟩ := hnote (p := .mapping (keyed entries ms)) hgrows
      ⟨ms, rfl, by rwa [hgrows.sound.nodes], hmet⟩
    refine ⟨f₂, ?_, hgrows₂⟩
    have hmeet : (meetEntries n).run f = .ok (keyed entries ms, f₁) := by
      have hset : (set ({ f with nodes := ns } : Filling) : Fill Unit).run f = .ok ((), f) := by
        rw [← hnodes]
        rfl
      have hentries' : (ns.entries? n).getD [] = ms := by
        rw [Nodes.entries?, hms]
        rfl
      rw [meetEntries, run_bind_ok hget, hnodes, merged?_of_represents hms hentries]
      simp only
      rw [run_bind_ok hset, hentries', run_bind_ok hrun,
        Data.ofPairsBy_of_pairwise (pairwise_keyed ms hkeys)]
      rfl
    rw [fill, run_bind_ok hget, hnodes, hms]
    simp only
    rw [run_bind_ok hmeet, hnote]

/-- The collections of a round can be filled. -/
theorem exists_round {ns : Nodes} {ms : List Nat} {f : Filling} (h : f.Sound ns ms) (low : Nat)
    (hlow : ∀ n ∈ ms, low ≤ n) :
    ∃ f', (ms.forM fill).run f = .ok ((), f') ∧ Grows ns [] (low + 1) f f' := by
  induction ms generalizing f with
  | nil => exact ⟨f, rfl, .refl h⟩
  | cons n ms ih =>
    obtain ⟨d, hn, hd⟩ := h.pending n (.inl List.mem_cons_self)
    obtain ⟨f₁, hrun, hgrows⟩ := exists_fill h hn hd
    obtain ⟨f₂, hrun', hgrows'⟩ := ih hgrows.sound fun n hn => hlow n (List.mem_cons_of_mem _ hn)
    refine ⟨f₂, ?_, hgrows'.sound, fun i hi => hgrows'.met i (hgrows.met i hi), fun i hi => ?_⟩
    · have hcons : (n :: ms).forM fill = (fill n >>= fun _ => ms.forM fill) := rfl
      rw [hcons, run_bind_ok hrun, hrun']
    · rcases hgrows'.waiting i hi with hi | hi
      · have := hlow n List.mem_cons_self
        exact (hgrows.waiting i hi).imp_right (Nat.le_trans (Nat.succ_le_succ this))
      · exact .inr hi

/-- All collections that were met are filled when there are rounds for all numbers of those that
wait. -/
theorem exists_fillAll {ns : Nodes} {fuel : Nat} {f : Filling} (h : f.Sound ns [])
    (hfuel : ∀ n ∈ f.waiting, ns.size ≤ n + fuel) :
    ∃ f', (fillAll fuel).run f = .ok ((), f') ∧ f'.Sound ns [] ∧ f'.waiting = [] ∧
      ∀ n, f.Met n → f'.Met n := by
  induction fuel generalizing f with
  | zero =>
    refine ⟨f, rfl, h, ?_, fun _ h => h⟩
    rw [List.eq_nil_iff_forall_not_mem]
    intro n hn
    obtain ⟨d, hd, -⟩ := h.pending n (.inr hn)
    exact absurd hd.represents.lt_size (Nat.not_lt.2 (hfuel n hn))
  | succ fuel ih =>
    have hget : (get : Fill Filling).run f = .ok (f, f) := rfl
    by_cases hwaiting : f.waiting = []
    · refine ⟨f, ?_, h, hwaiting, fun _ h => h⟩
      rw [fillAll, run_bind_ok hget, hwaiting]
      rfl
    · have hset : (set ({ f with waiting := [] } : Filling) : Fill Unit).run f =
          .ok ((), { f with waiting := [] }) := rfl
      have hround : Sound ns f.waiting.reverse { f with waiting := [] } := by
        refine ⟨h.nodes, h.size, h.trees, fun n hn => ?_, fun n p d hp hd => ?_⟩
        · exact h.pending n (.inr (by simpa using hn))
        · refine (h.stands n p d hp hd).imp (fun h => h.mono rfl fun _ h => h) ?_
          simp
      obtain ⟨f₁, hrun, hgrows⟩ := exists_round hround (ns.size - (fuel + 1)) fun n hn => by
        have := hfuel n (List.mem_reverse.1 hn)
        omega
      obtain ⟨f₂, hrun', hsound, hnone, hmet⟩ := ih hgrows.sound fun n hn => by
        rcases hgrows.waiting n hn with hn | hn
        · cases hn
        · omega
      refine ⟨f₂, ?_, hsound, hnone, fun n hn => hmet n (hgrows.met n hn)⟩
      have hsome : f.waiting.isEmpty = false := by simpa using hwaiting
      rw [fillAll, run_bind_ok hget, hsome, if_neg Bool.false_ne_true, run_bind_ok hset,
        run_bind_ok hrun, hrun']

end

end Filling

/-- What the nodes of a graph that represents a document stand for. -/
theorem exists_parts {ns : Nodes} {root : Nat} {d : Document} (h : Represents ns root d)
    (hdistinct : d.HasDistinctKeys) : ∃ f : Filling, Graph.parts ⟨ns, root⟩ = .ok f.parts ∧
      f.Sound ns [] ∧ f.waiting = [] ∧ f.Met root := by
  have hnone : ∀ n, Filling.part?
      { nodes := ns, parts := Array.replicate ns.size none, waiting := [] } n = none := by
    intro n
    rw [Filling.part?]
    simp only [Array.getElem?_replicate]
    split <;> rfl
  have hstart : Filling.Sound ns []
      { nodes := ns, parts := Array.replicate ns.size none, waiting := [] } := by
    refine ⟨rfl, Array.size_replicate, ?_, ?_, ?_⟩
    · rintro n ⟨p, hp⟩
      rw [hnone] at hp
      cases hp
    · rintro n (hn | hn) <;> cases hn
    · intro n p d hp
      rw [hnone] at hp
      cases hp
  obtain ⟨p, f₁, hrun, hgrows, hmet, -⟩ := Filling.exists_meet hstart ⟨h, hdistinct⟩
    (Nat.zero_le root)
  obtain ⟨f₂, hrun', hsound, hwaiting, hmet'⟩ := Filling.exists_fillAll hgrows.sound
    fun n _ => Nat.le_add_left ns.size n
  refine ⟨f₂, ?_, hsound, hwaiting, hmet' root hmet⟩
  have hseq : (Filling.meet root *> Filling.fillAll ns.size) =
      Filling.meet root >>= fun _ => Filling.fillAll ns.size := by
    rw [seqRight_eq_bind]
  rw [Graph.parts]
  simp only [hseq]
  rw [run_bind_ok hrun, hrun']
  rfl

/-! ## The data of nodes -/

/-- The data of one more node, if it is not known yet. -/
def settleNode (parts : Array (Option Part)) (n : Nat) (known : Known) : Known :=
  if known[n]?.join.isSome then known
  else known.setIfInBounds n (parts[n]?.join.bind (Part.data? known))

theorem settleOnce_eq (parts : Array (Option Part)) (known : Known) :
    settleOnce parts known = (List.range parts.size).foldr (settleNode parts) known := rfl

section

variable {ns : Nodes} {f : Filling} {known : Known} {n : Nat}

/-- Whether the data of the nodes from `low` on that were met is known, and no other. -/
structure KnownFrom (ns : Nodes) (f : Filling) (low : Nat) (known : Known) : Prop where
  size : known.size = ns.size
  below : ∀ n < low, known[n]?.join = none
  above : ∀ n d, low ≤ n → f.Met n → Represents ns n d → known[n]?.join = some d.toData

theorem data?_list {ms : List Nat} {items : List Document} (h : RepresentItems ns n ms items)
    (hmet : ∀ m ∈ ms, f.Met m) (hknown : KnownFrom ns f (n + 1) known) :
    Part.data? known (.list ms) = some (.list (Document.toDataAll items)) := by
  have hall : (ms.mapM fun n => known[n]?.join) = some (Document.toDataAll items) := by
    induction items generalizing ms with
    | nil =>
      cases h
      rfl
    | cons d ds ih =>
      rw [RepresentItems] at h
      obtain ⟨m, ms, rfl, hm, hd, hds⟩ := h
      rw [List.mapM_cons, hknown.above m d hm (hmet m List.mem_cons_self) hd,
        ih hds fun m hm => hmet m (List.mem_cons_of_mem _ hm)]
      rfl
  rw [Part.data?, hall]
  rfl

theorem data?_mapping {ms : List (Nat × Nat)} {entries : List (Text × Document)}
    (h : RepresentEntries ns n ms entries) (hmet : ∀ m ∈ ms, f.Met m.2)
    (hknown : KnownFrom ns f (n + 1) known) :
    Part.data? known (.mapping (keyed entries ms)) =
      some (.mapping (Document.toDataEntries entries)) := by
  have hall : ((keyed entries ms).mapM fun e => do
      return (e.1.value, ← known[e.2]?.join)) = some (Document.toDataEntries entries) := by
    induction entries generalizing ms with
    | nil => rfl
    | cons e es ih =>
      obtain ⟨k, d⟩ := e
      rw [RepresentEntries] at h
      obtain ⟨i, m, ms, rfl, -, hm, -, hd, hes⟩ := h
      have hkeyed : keyed ((k, d) :: es) ((i, m) :: ms) =
          (⟨.text k, some i⟩, m) :: keyed es ms := rfl
      rw [hkeyed, List.mapM_cons, hknown.above m d hm (hmet _ List.mem_cons_self) hd,
        ih hes fun m hm => hmet m (List.mem_cons_of_mem _ hm)]
      rfl
  rw [Part.data?, hall]
  rfl

/-- When the data of the later nodes is known, that of a node is found. -/
theorem data?_of_stands {d : Document} {p : Part} (h : f.Stands n d p) (hnodes : f.nodes = ns)
    (hknown : KnownFrom ns f (n + 1) known) : Part.data? known p = some d.toData := by
  subst hnodes
  cases d with
  | text t =>
    obtain rfl := h
    rfl
  | bool b =>
    obtain rfl := h
    rfl
  | list items =>
    obtain ⟨ms, rfl, hitems, hmet⟩ := h
    rw [data?_list hitems hmet hknown, Document.toData]
  | mapping entries =>
    obtain ⟨ms, rfl, hentries, hmet⟩ := h
    rw [data?_mapping hentries hmet hknown, Document.toData]

theorem KnownFrom.settleNode (h : f.Sound ns []) (hwaiting : f.waiting = [])
    (hknown : KnownFrom ns f (n + 1) known) : KnownFrom ns f n (settleNode f.parts n known) := by
  have hopen : known[n]?.join.isSome = false := by
    rw [hknown.below n (Nat.lt_succ_self n)]
    rfl
  rw [Yaml.settleNode, hopen, if_neg Bool.false_ne_true]
  have hget : ∀ i, (known.setIfInBounds n (f.parts[n]?.join.bind (Part.data? known)))[i]?.join =
      if i = n then f.parts[n]?.join.bind (Part.data? known) else known[i]?.join := by
    intro i
    rw [Array.getElem?_setIfInBounds]
    by_cases hi : n = i
    · subst hi
      rw [if_pos rfl, if_pos rfl]
      split
      · rfl
      · next hsize =>
        have hpart : f.parts[n]? = none := by
          rw [Array.getElem?_eq_none_iff, h.size, ← hknown.size]
          exact Nat.le_of_not_lt hsize
        rw [hpart]
        rfl
    · rw [if_neg hi, if_neg fun heq => hi heq.symm]
  refine ⟨Array.size_setIfInBounds.trans hknown.size, fun i hi => ?_, fun i d hi hmet hd => ?_⟩
  · rw [hget, if_neg (Nat.ne_of_lt hi)]
    exact hknown.below i (Nat.lt_succ_of_lt hi)
  · rw [hget]
    split
    · next heq =>
      subst heq
      obtain ⟨p, hp⟩ := hmet
      have hstands : f.Stands i d p := by
        rcases h.stands i p d hp hd with hstands | hi | hi
        · exact hstands
        · cases hi
        · rw [hwaiting] at hi
          cases hi
      rw [Filling.part?] at hp
      rw [hp]
      exact data?_of_stands hstands h.nodes hknown
    · next hne => exact hknown.above i d (Nat.lt_of_le_of_ne hi fun h => hne h.symm) hmet hd

theorem KnownFrom.start (ns : Nodes) (f : Filling) :
    KnownFrom ns f ns.size (Array.replicate ns.size none) := by
  refine ⟨Array.size_replicate, fun i hi => ?_, fun i d hi _ hd => ?_⟩
  · rw [Array.getElem?_replicate, if_pos hi]
    rfl
  · exact absurd hd.lt_size (Nat.not_lt.2 hi)

/-- One pass from the last node to the first finds the data of all nodes that were met. -/
theorem knownFrom_settleOnce (h : f.Sound ns []) (hwaiting : f.waiting = []) :
    KnownFrom ns f 0 (settleOnce f.parts (Array.replicate ns.size none)) := by
  have hpass : ∀ count low, low + count = ns.size → KnownFrom ns f low
      ((List.range' low count).foldr (settleNode f.parts) (Array.replicate ns.size none)) := by
    intro count
    induction count with
    | zero =>
      rintro low rfl
      exact .start ns f
    | succ count ih =>
      intro low hlow
      rw [List.range'_succ, List.foldr_cons]
      exact (ih (low + 1) (by omega)).settleNode h hwaiting
  rw [settleOnce_eq, List.range_eq_range', h.size]
  exact hpass ns.size 0 (Nat.zero_add _)

end

/-! ## The data of a graph -/

section

variable {parts : Array (Option Part)} {known : Known} {n : Nat} {d : Data}

theorem settleOnce_keeps (h : known[n]?.join = some d) :
    (settleOnce parts known)[n]?.join = some d := by
  rw [settleOnce_eq]
  induction List.range parts.size with
  | nil => exact h
  | cons i is ih =>
    rw [List.foldr_cons, settleNode]
    split
    · exact ih
    · next hi =>
      have hne : i ≠ n := by
        rintro rfl
        rw [ih] at hi
        exact hi rfl
      rw [Array.getElem?_setIfInBounds, if_neg hne, ih]

/-- What is known once stays known. -/
theorem settle_keeps (fuel : Nat) (h : known[n]?.join = some d) :
    (settle parts fuel known)[n]?.join = some d := by
  induction fuel generalizing known with
  | zero => exact h
  | succ fuel ih =>
    rw [settle]
    split
    · exact h
    · exact ih (settleOnce_keeps h)

end

section

variable {ns : Nodes} {f : Filling} {root : Nat}

/-- Nothing is known at first, and everything that was met after one pass. -/
theorem openCount_settleOnce_lt (h : f.Sound ns []) (hwaiting : f.waiting = [])
    (hmet : f.Met root) : openCount f.parts (settleOnce f.parts (Array.replicate ns.size none)) ≠
      openCount f.parts (Array.replicate ns.size none) := by
  have hknown := knownFrom_settleOnce h hwaiting
  have hnone : openCount f.parts (settleOnce f.parts (Array.replicate ns.size none)) = 0 := by
    rw [openCount, List.countP_eq_zero]
    intro n _
    cases hp : f.parts[n]?.join with
    | none => simp
    | some p =>
      obtain ⟨d, hd⟩ := h.trees n ⟨p, hp⟩
      rw [hknown.above n d (Nat.zero_le n) ⟨p, hp⟩ hd.represents]
      simp
  have hsome : 0 < openCount f.parts (Array.replicate ns.size none) := by
    obtain ⟨p, hp⟩ := hmet
    obtain ⟨d, hd⟩ := h.trees root ⟨p, hp⟩
    have hroot : root < ns.size := hd.represents.lt_size
    rw [Filling.part?] at hp
    rw [openCount, List.countP_pos_iff]
    refine ⟨root, List.mem_range.2 (by rw [h.size]; exact hroot), ?_⟩
    simp [hp, hroot]
  omega

/-- A graph that represents a document has its data. -/
theorem Represents.toData_eq {d : Document} (h : Represents ns root d)
    (hdistinct : d.HasDistinctKeys) : Graph.toData ⟨ns, root⟩ = .ok d.toData := by
  obtain ⟨f, hparts, hsound, hwaiting, hmet⟩ := exists_parts h hdistinct
  have hknown : (settle f.parts f.parts.size (Array.replicate f.parts.size none))[root]?.join =
      some d.toData := by
    obtain ⟨count, hcount⟩ : ∃ count, ns.size = count + 1 :=
      ⟨ns.size - 1, by have := h.lt_size; omega⟩
    have hopen := openCount_settleOnce_lt hsound hwaiting hmet
    have hroot := (knownFrom_settleOnce hsound hwaiting).above root d (Nat.zero_le root) hmet h
    rw [hsound.size, hcount, settle]
    rw [hcount] at hopen hroot
    rw [if_neg hopen]
    exact settle_keeps count hroot
  rw [Graph.toData, hparts]
  simp only [bind, Except.bind, hknown]
  rfl

end

end Yaml

end ShapeAlgebra
