import ShapeAlgebra.Data
import ShapeAlgebra.Failure
import ShapeAlgebra.Schema.Shown

/-!
# Building schemas with checks

Kinds from the values that name them, and records from entries that may be wrong: a name that is no
text, a shape where a field belongs, or a name that was there before. The first entry with a fault
decides, and within it the faults are looked for in that order.

Results:

* `Record.ofFields_eq_ok_iff`: fields make a record exactly when no name comes twice.
-/

namespace ShapeAlgebra

/-- The primitive kind that a value names (`PrimitiveKind`). -/
def PrimitiveKind.ofData (d : Data) : Except Failure PrimitiveKind :=
  match d with
  | .text t => match PrimitiveKind.ofName? t with
    | some k => .ok k
    | none => .error (.unknownPrimitiveKind d.shown)
  | _ => .error (.unknownPrimitiveKind d.shown)

/-- The kind of opaque leaves that a value names (`OpaqueKind`). -/
def OpaqueKind.ofData (d : Data) : Except Failure OpaqueKind :=
  match d with
  | .text t => match OpaqueKind.ofName? t with
    | some k => .ok k
    | none => .error (.unknownOpaqueKind d.shown)
  | _ => .error (.unknownOpaqueKind d.shown)

/-- What an entry of a record gives beside its name: a shape with flags, or a shape alone. -/
inductive EntryContent where
  | field (shape : Schema) (flags : Flags)
  | shape (s : Schema)

/-- An entry from which a record is built. -/
structure Entry where
  name : Data
  content : EntryContent

namespace Entry

/-- The entry with a bare shape made a required field (in `build_record`). -/
def wrapped (e : Entry) : Entry :=
  match e.content with
  | .shape s => ⟨e.name, .field s {}⟩
  | .field .. => e

/-- The field that an entry gives, unless its name or its content is wrong (in `Record`). -/
def toField (e : Entry) : Except Failure Field :=
  match e.name with
  | .text n => match e.content with
    | .field s flags => .ok ⟨n, s, flags⟩
    | .shape s => .error (.bareShape n s.shown)
  | d => .error (.fieldNameNotText d.shown)

/-- Puts an entry in the place of the entry of the same name, which keeps its spelling, or at the
end. -/
def insert (e : Entry) : List Entry → List Entry
  | [] => [e]
  | f :: fs => if f.name.sameKey e.name then ⟨f.name, e.content⟩ :: fs else f :: insert e fs

/-- The entries of a mapping: a name that comes again keeps its place and takes the last content (in
`build_record`). -/
def asMapping (es : List Entry) : List Entry := es.foldl (fun fs e => insert e fs) []

end Entry

namespace Record

/-- The record of a list of entries, checked one by one. `seen` holds the names before them. -/
def ofEntriesFrom (seen : List Text) : List Entry → Except Failure Record
  | [] => .ok []
  | e :: es => do
    let f ← e.toField
    if f.name ∈ seen then throw (.duplicateField f.name)
    let fs ← ofEntriesFrom (f.name :: seen) es
    return f :: fs

/-- The record of a list of entries (`Record`). -/
def ofEntries (es : List Entry) : Except Failure Record := ofEntriesFrom [] es

/-- The record of a list of entries, bare shapes standing for required fields (`build_record`). -/
def ofShapes (es : List Entry) : Except Failure Record := ofEntries (es.map Entry.wrapped)

/-- The first name of a list that is in `seen` or comes before it in the list. -/
def firstRepeated (seen : List Text) : List Text → Option Text
  | [] => none
  | n :: ns => if n ∈ seen then some n else firstRepeated (n :: seen) ns

/-- The record of a list of fields, unless a name comes twice (`Record`). -/
def ofFields (fs : List Field) : Except Failure Record :=
  match firstRepeated [] (fs.map Field.name) with
  | some n => .error (.duplicateField n)
  | none => .ok fs

/-- The field of a given name (`get_field`). -/
def get (r : Record) (n : Text) : Except Failure Field :=
  match r.find? n with
  | some f => .ok f
  | none => .error (.unknownNames .record (KeySet.ofList [n]))

theorem firstRepeated_eq_none_iff {seen ns : List Text} :
    firstRepeated seen ns = none ↔ ns.Nodup ∧ ∀ n ∈ ns, n ∉ seen := by
  induction ns generalizing seen with
  | nil => simp [firstRepeated]
  | cons n ns ih =>
    simp only [firstRepeated]
    split
    · next h => simp [h]
    · next h =>
      rw [ih, List.nodup_cons]
      constructor
      · rintro ⟨hd, hs⟩
        refine ⟨⟨fun hn => hs n hn (by simp), hd⟩, fun m hm => ?_⟩
        rcases List.mem_cons.1 hm with rfl | hm
        · exact h
        · exact fun hms => hs m hm (List.mem_cons_of_mem _ hms)
      · rintro ⟨⟨hn, hd⟩, hs⟩
        refine ⟨hd, fun m hm hms => ?_⟩
        rcases List.mem_cons.1 hms with rfl | hms
        · exact hn hm
        · exact hs m (List.mem_cons_of_mem _ hm) hms

theorem ofFields_eq_ok_iff {fs : List Field} {r : Record} :
    ofFields fs = .ok r ↔ r = fs ∧ (fs.map Field.name).Nodup := by
  have key := @firstRepeated_eq_none_iff [] (fs.map Field.name)
  simp only [ofFields]
  cases h : firstRepeated [] (fs.map Field.name) with
  | some n =>
    have hn : ¬ (fs.map Field.name).Nodup := fun hd =>
      absurd (key.2 ⟨hd, fun _ _ => by simp⟩) (by simp [h])
    simp [hn]
  | none =>
    have hd := (key.1 h).1
    constructor
    · intro e; exact ⟨(Except.ok.inj e).symm, hd⟩
    · rintro ⟨rfl, _⟩; rfl

end Record

end ShapeAlgebra
