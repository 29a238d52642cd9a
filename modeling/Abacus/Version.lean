import Abacus.Text.Character

/-! # Versions

The version is the one that a project manifest gives, if the manifest is this
program's own, else that of the installed program.
-/

namespace Abacus.Version

def program : String := "calcline"

def current : String := "0.3.0"

def unknown : String := "0.0.0"

/-- A line of a manifest: the heading of a section, or a key with a quoted value. -/
inductive Item where
  | heading (name : String)
  | entry (key value : String)
  | other

def Item.ofLine (line : List Char) : Item :=
  match Text.stripChars line with
  | '[' :: rest => .heading (trimmed (rest.takeWhile (· ≠ ']')))
  | text =>
    match Text.stripChars ((text.dropWhile (· ≠ '=')).drop 1) with
    | '"' :: rest =>
      .entry (trimmed (text.takeWhile (· ≠ '='))) (String.ofList (rest.takeWhile (· ≠ '"')))
    | _ => .other
where
  trimmed (cs : List Char) : String := String.ofList (Text.stripChars cs)

/-- The entries under the headings of the given name; `current` says whether one is above. -/
def entriesUnder (name : String) (current : Bool) : List Item → List (String × String)
  | [] => []
  | .heading x :: items => entriesUnder name (x = name) items
  | .entry key value :: items =>
    let rest := entriesUnder name current items
    if current then (key, value) :: rest else rest
  | .other :: items => entriesUnder name current items

def ofManifest? (manifest : String) : Option String :=
  let items := (Text.lines manifest.toList).map Item.ofLine
  let project := entriesUnder "project" false items
  if project.lookup "name" = some program then project.lookup "version" else none

def find (manifest installed : Option String) : String :=
  match manifest.bind ofManifest? with
  | some "" | none => installed.getD unknown
  | some version => version

end Abacus.Version
