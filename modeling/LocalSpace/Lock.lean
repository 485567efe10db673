import LocalSpace.Library.Framing
import LocalSpace.Library.Lossy
import Mathlib.Data.Char
import Mathlib.Data.List.Lex

/-!
# What the environment's lock pins

`lock.rs`'s `package_hash`: the files of a package's directory, two levels deep, hashed as one
stream of names and contents, each ended by a zero byte, in the order of the names. The stream says
which files it is of where a file that is changed keeps its size, or has no zero byte in it; a file
that has one may stand for two.
-/

namespace LocalSpace.Lock

open Library

abbrev Bytes := List UInt8

/-- A file as it can be read, or a directory's entries. -/
inductive Tree where
  | file (read : Option Bytes)
  | dir (entries : List (Bytes × Tree))

/-- A directory's entries, in the order the system lists them. -/
abbrev Entries := List (Bytes × Tree)

/-- A name as text: `to_string_lossy`. -/
@[grind =]
def textOf (name : Bytes) : List Char :=
  (Utf8.items name).map fun item => item.getD '\uFFFD'

/-- A name under the names above it. -/
def under (above name : List Char) : List Char :=
  if above.isEmpty then name else above ++ '/' :: name

/-- The files under a directory, so many levels deep, by their relative names. -/
def collect : ℕ → List Char → Entries → List (List Char × Option Bytes)
  | deeper, above, entries => entries.flatMap fun (name, tree) =>
    match tree with
    | .file read => [(under above (textOf name), read)]
    | .dir inside =>
      match deeper with
      | 0 => []
      | deeper + 1 => collect deeper (under above (textOf name)) inside

/-- The stream that is hashed. -/
def stream (entries : Entries) : Bytes :=
  (sortByName (collect 2 [] entries)).flatMap fun (name, read) =>
    Utf8.encode name ++ [0] ++ read.getD [] ++ [0]

/-- A file under a directory, by the names that lead to it. -/
inductive Holds : Entries → List Bytes → Option Bytes → Prop
  | here {entries : Entries} {name : Bytes} {read : Option Bytes}
      (hmem : (name, .file read) ∈ entries) : Holds entries [name] read
  | inside {entries inner : Entries} {name : Bytes} {path : List Bytes} {read : Option Bytes}
      (hmem : (name, .dir inner) ∈ entries) (hinner : Holds inner path read) :
      Holds entries (name :: path) read

/-- A name as a file system has it: text, not empty, and with neither a slash nor a zero byte. -/
def NameOk (name : Bytes) : Prop :=
  ∃ text, name = Utf8.encode text ∧ text ≠ [] ∧ '/' ∉ text ∧ '\x00' ∉ text

/-- A directory as a file system has it: its entries' names differ. -/
inductive Proper : Entries → Prop
  | intro {entries : Entries} (hnodup : (entries.map Prod.fst).Nodup)
      (hnames : ∀ entry ∈ entries, NameOk entry.1)
      (hinside : ∀ name inner, (name, .dir inner) ∈ entries → Proper inner) : Proper entries

/-- Two contents of a file that the stream tells apart where they differ: both can be read, and are
of one size or without a zero byte. -/
def Told (read read' : Option Bytes) : Prop :=
  read = read' ∨ ∃ bytes bytes', read = some bytes ∧ read' = some bytes' ∧
    (bytes.length = bytes'.length ∨ (0 : UInt8) ∉ bytes ∧ (0 : UInt8) ∉ bytes')

/-- The files so many levels deep, by the names that lead to them. -/
@[grind =]
def walk : ℕ → Entries → List (List Bytes × Option Bytes)
  | deeper, entries => entries.flatMap fun (name, tree) =>
    match tree with
    | .file read => [([name], read)]
    | .dir inside =>
      match deeper with
      | 0 => []
      | deeper + 1 => (walk deeper inside).map fun (path, read) => (name :: path, read)

theorem textOf_encode (text : List Char) : textOf (Utf8.encode text) = text := by
  rw [textOf, Utf8.items_encode, List.map_map]
  exact List.map_id _

theorem NameOk.text {name : Bytes} (h : NameOk name) :
    textOf name ≠ [] ∧ '/' ∉ textOf name ∧ '\x00' ∉ textOf name := by
  obtain ⟨text, rfl, hrest⟩ := h
  rwa [textOf_encode]

/-- The names that lead to a file of a proper directory. -/
theorem Holds.names {entries : Entries} {path : List Bytes} {read : Option Bytes}
    (h : Holds entries path read) (hproper : Proper entries) :
    path ≠ [] ∧ ∀ name ∈ path, NameOk name := by
  induction h with
  | here hmem =>
    obtain ⟨-, hnames, -⟩ := hproper
    refine ⟨List.cons_ne_nil _ _, fun name hname => ?_⟩
    rw [List.mem_singleton.mp hname]
    exact hnames _ hmem
  | inside hmem _ ih =>
    obtain ⟨-, hnames, hinside⟩ := hproper
    refine ⟨List.cons_ne_nil _ _, fun name hname => ?_⟩
    rcases List.mem_cons.mp hname with rfl | hname
    · exact hnames _ hmem
    · exact (ih (hinside _ _ hmem)).2 name hname

/-- A name of letters. -/
@[grind =]
def named (text : List Char) : Bytes :=
  Utf8.encode text

/-- One file in a directory. -/
@[grind =]
def one (name : List Char) (bytes : Bytes) : Entries :=
  [(named name, .file (some bytes))]

theorem Proper.reverse {entries : Entries} (h : Proper entries) : Proper entries.reverse := by
  obtain ⟨hnodup, hnames, hinside⟩ := h
  exact ⟨by simpa using hnodup, by simpa using hnames, by simpa using hinside⟩

/-- Bytes as they are, one character each: nothing is hashed. -/
def letters (bytes : Bytes) : String :=
  String.ofList (bytes.map fun b => Char.ofNat b.toNat)

/-- One file that has two others' names and bytes written into it, and those two. -/
def oneFile : Entries :=
  one ['a'] [120, 0, 98, 0, 121]

end LocalSpace.Lock
