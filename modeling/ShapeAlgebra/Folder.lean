import ShapeAlgebra.Text

/-!
# Paths and folders

The files that can be read, by their paths from the folder in which the program runs. Nothing is
known of what lies outside that folder but the folders that lead to it, and what every system has:
some folders at its root, and the empty file `/dev/null`.

Results:

* `Path.text_ofText_nil`: the empty path is that of the folder itself.
* `Path.fault?_ofChars`: a text without null characters and without halves of surrogate pairs is a
  path.
* `Folder.find_nil`: the folder itself is found as a folder.
-/

namespace ShapeAlgebra

/-- A path: the slashes in front, and the names on the way. -/
structure Path where
  root : Text
  names : List Text
deriving DecidableEq, Repr

namespace Path

/-- The code point between the names of a path. -/
def slash : CodePoint := .scalar '/'

/-- The path that a text denotes. Names that are empty or a single dot lead nowhere, and more than
two slashes in front are as good as one. -/
def ofText (t : Text) : Path :=
  let slashes := (t.takeWhile (· == slash)).length
  let root : Text := if slashes = 0 then [] else if slashes = 2 then [slash, slash] else [slash]
  ⟨root, (pieces slash t).filter fun n => !(n.isEmpty || n == [.scalar '.'])⟩

/-- The path as a text. -/
def text (p : Path) : Text :=
  if p.root.isEmpty && p.names.isEmpty then "." else p.root ++ Text.join [slash] p.names

theorem text_ofText_nil : text (ofText []) = Text.ofString "." := by decide

end Path

/-- Why a text cannot be a path. -/
inductive PathFault where
  /-- The null character ends a path. -/
  | nullCharacter
  /-- A half of a surrogate pair stands for no byte. -/
  | surrogate
deriving DecidableEq, Repr

namespace Path

/-- Whether a code point is a half of a surrogate pair that stands for no byte. The halves from
0xDC80 to 0xDCFF stand for the bytes that are no text. -/
def isByteless : CodePoint → Bool
  | .surrogate half => !(0x480 ≤ half.val && half.val < 0x500)
  | .scalar _ => false

/-- Why a text cannot be a path, if it cannot. -/
def fault? (t : Text) : Option PathFault :=
  if t.any isByteless then some .surrogate
  else if t.contains (.scalar '\x00') then some .nullCharacter
  else none

theorem fault?_ofChars {cs : List Char} (h : '\x00' ∉ cs) : fault? (Text.ofChars cs) = none := by
  have h₁ : (Text.ofChars cs).any isByteless = false := by
    simp [Text.ofChars, isByteless]
  have h₂ : (Text.ofChars cs).contains (.scalar '\x00') = false := by
    simpa [Text.ofChars] using h
  simp only [fault?, h₁, h₂, Bool.false_eq_true, if_false]

/-- The number of bytes of a code point in a path. -/
def codePointSize (p : CodePoint) : Nat :=
  match p with
  | .surrogate _ => 1
  | .scalar c => c.utf8Size

/-- The number of bytes of a text in a path. -/
def size (t : Text) : Nat := t.foldl (fun total p => total + codePointSize p) 0

/-- The number of bytes that a name may have. -/
def longestName : Nat := 255

/-- The number of bytes that a path may have. -/
def longest : Nat := 4095

end Path

/-- Files by the names on the way to them. -/
structure Folder where
  files : List (List Text × List UInt8)
deriving DecidableEq, Repr

/-- What lies at a path. -/
inductive Found where
  | file (bytes : List UInt8)
  | folder
  | nothing
  /-- The path, or a name on it, is longer than it can be. -/
  | nameTooLong
deriving DecidableEq, Repr

namespace Folder

/-- The folder of some files, given by the texts of their paths. -/
def ofFiles (files : List (Text × List UInt8)) : Folder :=
  ⟨files.map fun (t, bytes) => ((Path.ofText t).names, bytes)⟩

/-- Whether files lie below some names. -/
def isFolder (f : Folder) (here : List Text) : Bool :=
  f.files.any fun p => here.isPrefixOf p.1 && decide (here.length < p.1.length)

/-- What is found behind `here` by following some names; `here` is missing outside the folder. -/
def findFrom (f : Folder) (here : Option (List Text)) : List Text → Found
  | [] => .folder
  | n :: ns =>
    if n == [.scalar '.', .scalar '.'] then
      findFrom f (here.bind fun h => if h.isEmpty then none else some h.dropLast) ns
    else if Path.longestName < Path.size n then .nameTooLong
    else match here with
      | none => .nothing
      | some h =>
        let there := h ++ [n]
        match f.files.lookup there with
        | some bytes => if ns.isEmpty then .file bytes else .nothing
        | none => if f.isFolder there then findFrom f (some there) ns else .nothing

/-- The folders that every system has at its root. -/
def systemFolders : List String :=
  ["bin", "dev", "etc", "home", "lib", "proc", "sbin", "sys", "tmp", "usr", "var"]

/-- What every system has at a path from its root. -/
def system? (p : Path) : Option Found :=
  match p.names with
  | [n] => if systemFolders.any fun w => Text.ofString w == n then some .folder else none
  | [d, n] =>
    if d == Text.ofString "dev" && n == Text.ofString "null" then some (.file []) else none
  | _ => none

/-- What lies at a path. -/
def find (f : Folder) (p : Path) : Found :=
  if (Path.fault? p.text).isSome then .nothing
  else if Path.longest < Path.size p.text then .nameTooLong
  else match if p.root.isEmpty then none else system? p with
  | some found => found
  | none => f.findFrom (if p.root.isEmpty then some [] else none) p.names

theorem find_nil (f : Folder) : f.find (Path.ofText []) = .folder := rfl

end Folder

end ShapeAlgebra
