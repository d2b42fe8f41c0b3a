import ShapeAlgebra.Proofs.Declaration.Legality

/-!
# Readings that stay

What can be read without faults is read in the same way at another place, inside fewer collections
that contain themselves, and when other names are declared, as long as the names that it refers to
still are: the words of this library go before declared names, and every other word that can be read
is a declared name already. Here the data need not be finite.

Results:

* `Outline.ofData_extend`: the outline of a declaration stays in other circumstances.
-/

namespace ShapeAlgebra

open Grammar

/-! ## Readings of parts -/

theorem flagUnder_extend {entries : List (Data × Data)} {place key : Text} {b : Bool}
    (h : flagUnder entries place key = .ok b) (place' : Text) :
    flagUnder entries place' key = .ok b := by
  unfold flagUnder at h ⊢
  cases hv : Data.find? entries key with
  | none => simpa only [hv] using h
  | some v =>
    rw [hv] at h
    cases v with
    | null => exact h
    | bool b => exact h
    | _ => cases h

theorem readFlags_extend {entries : List (Data × Data)} {place : Text} {own : Bool} {f : Flags}
    (h : readFlags place entries own = .ok f) (place' : Text) :
    readFlags place' entries own = .ok f := by
  unfold readFlags at h ⊢
  cases ho : flagUnder entries place "optional" with
  | error cause => rw [ho] at h; cases h
  | ok optional =>
    cases hn : flagUnder entries place "nullable" with
    | error cause => rw [ho, hn] at h; cases h
    | ok nullable =>
      rw [ho, hn] at h
      rw [flagUnder_extend ho, flagUnder_extend hn]
      cases own with
      | true => exact h
      | false =>
        cases hr : flagUnder entries place "readonly" with
        | error cause => rw [hr] at h; cases h
        | ok readonly =>
          rw [hr] at h
          rw [flagUnder_extend hr]
          exact h

theorem fieldFlags_extend {d : Data} {place : Text} {f : Flags} (h : fieldFlags place d = .ok f)
    (place' : Text) : fieldFlags place' d = .ok f := by
  cases d with
  | mapping entries => exact readFlags_extend h place'
  | _ => exact h

theorem readOpaque_extend {D : Text → Prop} {place : Text} {entries : List (Data × Data)}
    (h : (readOpaque place entries).IsLegal D) (place' : Text) :
    readOpaque place' entries = readOpaque place entries := by
  unfold readOpaque at h ⊢
  cases hk : OpaqueKind.ofData ((Data.find? entries "kind").getD (.text "callable")) with
  | error cause => simp only [hk, Outline.IsLegal] at h
  | ok k =>
    simp only [hk] at h ⊢
    cases hn : Data.find? entries "name" with
    | none => rfl
    | some v =>
      rw [hn] at h
      cases v with
      | null => rfl
      | text t => rfl
      | _ => exact h.elim

/-- A mapping is read in the same way when its parts are. -/
theorem Outline.ofParts_extend {D : Text → Prop} {place place' : Text} {own : Bool}
    {entries : List (Data × Data)} {element element' : Unit → Option Outline}
    {members members' : Unit → Option (List Outline)}
    {fields fields' : Unit → Except DeclarationFault (List FieldOutline)}
    (he : ∀ e, element () = some e → e.IsLegal D → element' () = some e)
    (hm : ∀ ms, members () = some ms → Outline.AllLegal D ms → members' () = some ms)
    (hf : ∀ fs, fields () = .ok fs → FieldOutline.AllLegal D fs → fields' () = .ok fs)
    (h : (Outline.ofParts place own entries element members fields).IsLegal D) :
    Outline.ofParts place' own entries element' members' fields' =
      Outline.ofParts place own entries element members fields := by
  obtain ⟨cause, hc⟩ | ⟨t, ht, hne⟩ | ⟨k, ht⟩ | ht | ht | ht | ht | ht :=
    Outline.ofParts_cases place own entries element members fields
  · rw [hc] at h
    exact h.elim
  · rw [Outline.ofParts_reference ht hne, Outline.ofParts_reference ht hne]
  · rw [Outline.ofParts_primitive ht, Outline.ofParts_primitive ht]
  · rw [Outline.ofParts_never ht, Outline.ofParts_never ht]
  · rw [Outline.ofParts_opaque ht] at h
    rw [Outline.ofParts_opaque ht, Outline.ofParts_opaque ht, readOpaque_extend h]
  · rw [Outline.ofParts_record ht] at h
    rw [Outline.ofParts_record ht, Outline.ofParts_record ht]
    cases hfs : fields () with
    | error cause => rw [hfs] at h; exact h.elim
    | ok fs =>
      rw [hfs] at h
      rw [hf fs hfs h.1]
  · rw [Outline.ofParts_sequence ht] at h
    rw [Outline.ofParts_sequence ht, Outline.ofParts_sequence ht]
    cases hel : element () with
    | none => rw [hel] at h; exact h.elim
    | some e =>
      rw [hel] at h
      rw [he e hel h.1]
      cases own with
      | false => rfl
      | true =>
        obtain ⟨b, hb⟩ := h.2
        rw [if_pos rfl] at hb
        rw [if_pos rfl, if_pos rfl, hb, flagUnder_extend hb]
  · rw [Outline.ofParts_union ht] at h
    rw [Outline.ofParts_union ht, Outline.ofParts_union ht]
    cases hms : members () with
    | none => rw [hms] at h; exact h.elim
    | some ms =>
      rw [hms] at h
      rw [hm ms hms h]

section

variable {D : Text → Prop} {declared declared' : Text → Bool} {around around' : List (Nat × Bool)}

theorem Outline.membersFrom_extend {place place' : Text} {index : Nat} {ms : List Data}
    (hms : ∀ m ∈ ms, ∀ p p', (Outline.ofData declared around p m).IsLegal D →
      Outline.ofData declared' around' p' m = Outline.ofData declared around p m)
    (h : Outline.AllLegal D (Outline.membersFrom declared around place index ms)) :
    Outline.membersFrom declared' around' place' index ms =
      Outline.membersFrom declared around place index ms := by
  induction ms generalizing index with
  | nil => simp [Outline.membersFrom]
  | cons m ms ih =>
    rw [Outline.membersFrom] at h
    rw [Outline.membersFrom, Outline.membersFrom, hms m (List.mem_cons_self ..) _ _ h.1,
      ih (fun k hk => hms k (List.mem_cons_of_mem _ hk)) h.2]

theorem FieldOutline.ofEntries_extend {place place' : Text} {entries : List (Data × Data)}
    (hfs : ∀ e ∈ entries, ∀ name p p',
      (FieldOutline.ofData declared around name p e.2).shape.IsLegal D →
        FieldOutline.ofData declared' around' name p' e.2 =
          FieldOutline.ofData declared around name p e.2)
    (h : FieldOutline.AllLegal D (FieldOutline.ofEntries declared around place entries)) :
    FieldOutline.ofEntries declared' around' place' entries =
      FieldOutline.ofEntries declared around place entries := by
  rw [FieldOutline.ofEntries_eq_map, FieldOutline.allLegal_iff, List.forall_mem_map] at h
  rw [FieldOutline.ofEntries_eq_map, FieldOutline.ofEntries_eq_map]
  refine List.map_congr_left fun e he => ?_
  have hl := h e he
  split at hl
  · next hk => rw [if_pos hk, if_pos hk, hfs e he _ _ _ hl]
  · exact hl.elim

/-! ## Readings of declarations -/

theorem readWord_extend (hext : ∀ n, D n → declared n = true → declared' n = true)
    {place place' w : Text} (h : (readWord declared place w).IsLegal D) :
    readWord declared' place' w = readWord declared place w := by
  by_cases hw : BuiltIn w
  · obtain ⟨s, hs⟩ := readWord_builtIn hw
    rw [hs, hs]
  · rw [readWord_of_not_builtIn hw] at h
    rw [readWord_of_not_builtIn hw, readWord_of_not_builtIn hw]
    split at h
    · next hd => rw [if_pos hd, if_pos (hext w h hd)]
    · exact h.elim

theorem not_contains_of_subset (ha : around' ⊆ around) {p : Nat × Bool}
    (hp : ¬ around.contains p = true) : ¬ around'.contains p = true := by
  rw [List.contains_iff_mem] at hp ⊢
  exact fun hmem => hp (ha hmem)

mutual

theorem Outline.ofData_extend (hext : ∀ n, D n → declared n = true → declared' n = true)
    {around around' : List (Nat × Bool)} (ha : around' ⊆ around) {place place' : Text} {d : Data}
    (h : (Outline.ofData declared around place d).IsLegal D) :
    Outline.ofData declared' around' place' d = Outline.ofData declared around place d := by
  cases d with
  | null => rw [Outline.ofData_null, Outline.ofData_null]
  | text t =>
    rw [Outline.ofData_text] at h
    rw [Outline.ofData_text, Outline.ofData_text, readWord_extend hext h]
  | mapping entries =>
    rw [Outline.ofData_mapping] at h ⊢
    rw [Outline.ofData_mapping]
    refine Outline.ofParts_extend (fun e he hl => ?_) (fun ms hms hl => ?_)
      (fun fs hfs hl => ?_) h
    · obtain ⟨v, hv, rfl⟩ := Option.map_eq_some_iff.1 he
      have hsmall := Data.sizeOf_of_find? hv
      rw [hv, Option.map_some, Outline.ofData_extend hext ha hl]
    · obtain ⟨v, hv, hms⟩ := Option.bind_eq_some_iff.1 hms
      have hsmall := Data.sizeOf_of_find? hv
      rw [hv, Option.bind_some]
      exact Outline.membersOf_extend hext ha hms hl
    · cases hv : Data.find? entries "fields" with
      | none => rw [hv] at hfs; exact hfs
      | some v =>
        have hsmall := Data.sizeOf_of_find? hv
        rw [hv] at hfs
        exact Outline.fieldsOf_extend hext ha hfs hl
  | recurring n d =>
    rw [Outline.ofData] at h ⊢
    rw [Outline.ofData]
    split at h
    · exact h.elim
    · next hn =>
      rw [if_neg hn, if_neg (not_contains_of_subset ha hn)]
      exact Outline.ofData_extend hext (List.cons_subset_cons _ ha) h
  | _ => simp [Outline.ofData, Outline.IsLegal] at h
termination_by 2 * sizeOf d

theorem Outline.membersOf_extend (hext : ∀ n, D n → declared n = true → declared' n = true)
    {around around' : List (Nat × Bool)} (ha : around' ⊆ around) {place place' : Text} {d : Data}
    {ms : List Outline} (hms : Outline.membersOf declared around place d = some ms)
    (h : Outline.AllLegal D ms) : Outline.membersOf declared' around' place' d = some ms := by
  cases d with
  | list items =>
    rw [Outline.membersOf] at hms ⊢
    cases hms
    rw [Outline.membersFrom_extend (fun m hm p p' hl => ?_) h]
    have hsmall := List.sizeOf_lt_of_mem hm
    exact Outline.ofData_extend hext ha hl
  | recurring n d =>
    rw [Outline.membersOf] at hms ⊢
    exact Outline.membersOf_extend hext ha hms h
  | _ => simp [Outline.membersOf] at hms
termination_by 2 * sizeOf d

theorem Outline.fieldsOf_extend (hext : ∀ n, D n → declared n = true → declared' n = true)
    {around around' : List (Nat × Bool)} (ha : around' ⊆ around) {place place' : Text} {d : Data}
    {fs : List FieldOutline} (hfs : Outline.fieldsOf declared around place d = .ok fs)
    (h : FieldOutline.AllLegal D fs) : Outline.fieldsOf declared' around' place' d = .ok fs := by
  cases d with
  | null => exact hfs
  | mapping entries =>
    rw [Outline.fieldsOf] at hfs ⊢
    cases hfs
    rw [FieldOutline.ofEntries_extend (fun e he name p p' hl => ?_) h]
    have hsmall := Data.sizeOf_of_mem he
    exact FieldOutline.ofData_extend hext ha hl
  | recurring n d =>
    rw [Outline.fieldsOf] at hfs ⊢
    exact Outline.fieldsOf_extend hext ha hfs h
  | _ => simp [Outline.fieldsOf] at hfs
termination_by 2 * sizeOf d

theorem FieldOutline.ofData_extend (hext : ∀ n, D n → declared n = true → declared' n = true)
    {around around' : List (Nat × Bool)} (ha : around' ⊆ around) {name place place' : Text}
    {d : Data} (h : (FieldOutline.ofData declared around name place d).shape.IsLegal D) :
    FieldOutline.ofData declared' around' name place' d =
      FieldOutline.ofData declared around name place d := by
  by_cases hd : ∃ n e, d = .recurring n e
  · obtain ⟨n, e, rfl⟩ := hd
    rw [FieldOutline.ofData] at h ⊢
    rw [FieldOutline.ofData]
    split at h
    · exact h.elim
    · next hn =>
      rw [if_neg hn, if_neg (not_contains_of_subset ha hn)]
      exact FieldOutline.ofData_extend hext (List.cons_subset_cons _ ha) h
  · have hr : ∀ n e, d ≠ .recurring n e := fun n e he => hd ⟨n, e, he⟩
    have hsmall := sizeOf_fieldShape_le d
    obtain ⟨hflags, hl⟩ := (FieldOutline.isLegal_ofData _ _ _ _ hr).1 h
    obtain ⟨f, hf⟩ := exists_fieldFlags_iff.2 hflags
    rw [FieldOutline.ofData_eq _ _ _ _ hr, FieldOutline.ofData_eq _ _ _ _ hr, hf,
      fieldFlags_extend hf, Outline.ofData_extend hext ha hl]
termination_by 2 * sizeOf d + 1

end

end

end ShapeAlgebra
