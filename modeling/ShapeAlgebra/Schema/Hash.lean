import ShapeAlgebra.Schema.Same

/-!
# Schemas in hashed collections

A collection that is hashed looks for a schema by its hash and compares it with what it finds there.
The comparison goes by look-up: the fields of one record are looked up in the other by their names,
and each member of one union is looked for among those of the other, of which there must be as many.
The hash of a schema is made of the hashes of its leaves by two ways of joining hashes, one for
tuples and one for sets.

Results:

* `Hashing.hash_never`: the hash of the impossible shape is that of an empty set.
-/

namespace ShapeAlgebra

/-! ## Comparison by look-up -/

mutual

/-- Whether two schemas are equal, records and unions being compared by look-up (equality of
`Record`, `Union` and the other nodes). The members of an exclusive union follow from its variants
and need no comparison. -/
def Schema.looksLike : Schema → Schema → Bool
  | .primitive k, t => match t with
    | .primitive l => k == l
    | _ => false
  | .opaqueLeaf k n, t => match t with
    | .opaqueLeaf l m => k == l && n == m
    | _ => false
  | .sequence e r, t => match t with
    | .sequence f s => Schema.looksLike e f && r == s
    | _ => false
  | .union ms, t => match t with
    | .union ns => ms.length == ns.length && Schema.allFound ms ns
    | _ => false
  | .record fs, t => match t with
    | .record gs => fs.length == gs.length && Field.allFound fs gs
    | _ => false
  | .exclusive a b x y, t => match t with
    | .exclusive c d u v =>
      (a.length == c.length && Field.allFound a c) &&
        (b.length == d.length && Field.allFound b d) && x == u && y == v
    | _ => false
termination_by structural s => s

/-- Whether each schema of the first list has an equal one in the second. -/
def Schema.allFound : List Schema → List Schema → Bool
  | [], _ => true
  | s :: ss, ts => (ts.any fun t => Schema.looksLike s t) && Schema.allFound ss ts
termination_by structural ss => ss

/-- Whether each field of the first record is equal to the field of its name in the second. -/
def Field.allFound : List Field → Record → Bool
  | [], _ => true
  | f :: fs, r => Field.isFound f r && Field.allFound fs r
termination_by structural fs => fs

/-- Whether a field is equal to the field of its name in a record. -/
def Field.isFound : Field → Record → Bool
  | ⟨n, s, flags⟩, r => match r.find? n with
    | some g => flags == g.flags && Schema.looksLike s g.shape
    | none => false
termination_by structural f => f

end

/-! ## Hashes -/

/-- A part of a schema that is hashed without regard to further parts. -/
inductive HashLeaf where
  | primitiveKind (k : PrimitiveKind)
  | opaqueKind (k : OpaqueKind)
  | text (t : Text)
  | bool (b : Bool)
  /-- The name of a leaf that has none. -/
  | noName
deriving DecidableEq, Repr

/-- Hashes of leaves, and how the hashes of a tuple and of a set come from those of their items. In
which order the items of a set are taken does not matter. -/
structure Hashing (H : Type) where
  leaf : HashLeaf → H
  tuple : List H → H
  set : List H → H
  set_perm : ∀ {xs ys : List H}, xs.Perm ys → set xs = set ys

namespace Hashing

variable {H : Type} (h : Hashing H)

/-- The hash of a set of names. -/
def hashNames (ks : KeySet) : H := h.set (ks.names.map fun n => h.leaf (.text n))

mutual

/-- The hash of a schema (hash of `Record` and the other nodes). A record is hashed as the set of
its names with their fields, and an exclusive union with the set of its variants, which is of one
record if they are equal. -/
def hash : Schema → H
  | .primitive k => h.tuple [h.leaf (.primitiveKind k)]
  | .opaqueLeaf k n => h.tuple [h.leaf (.opaqueKind k), h.leaf (n.elim .noName .text)]
  | .sequence e r => h.tuple [hash e, h.leaf (.bool r)]
  | .union ms => h.tuple [h.set (hashAll ms)]
  | .record fs => h.set (hashFields fs)
  | .exclusive a b x y =>
    let first := h.set (hashFields a)
    let second := h.set (hashFields b)
    h.tuple [h.set (if Record.same a b then [first] else [first, second]), first, second,
      h.hashNames x, h.hashNames y]

/-- The hashes of several schemas. -/
def hashAll : List Schema → List H
  | [] => []
  | s :: ss => hash s :: hashAll ss

/-- The hashes of several names with their fields. -/
def hashFields : List Field → List H
  | [] => []
  | ⟨n, s, flags⟩ :: fs =>
    h.tuple [h.leaf (.text n), h.tuple [hash s, h.leaf (.bool flags.optional),
      h.leaf (.bool flags.nullable), h.leaf (.bool flags.readonly)]] :: hashFields fs

end

theorem hash_never : h.hash .never = h.tuple [h.set []] := rfl

end Hashing

end ShapeAlgebra
