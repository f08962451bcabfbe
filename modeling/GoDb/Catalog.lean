import GoDb.Table

/-! The catalog of `kv/catalog.go`: which tables there are, where their files are, and
their schemas. Its file is a JSON text; here it is what `json.Unmarshal` makes of the
text, and the names and paths in it are such that JSON gives them back. -/
namespace GoDb
open Foundation Outcome

structure CatalogEntry where
  name : Bytes
  path : Bytes
  schema : Schema
  deriving DecidableEq

/-- What a catalog file says, or `none` if it is no list of entries. -/
abbrev CatalogFile := Option (List CatalogEntry)

/-- The map of the entries, each under its own name, and the file. -/
structure Catalog where
  entries : GoMap CatalogEntry
  file : Option CatalogFile
  named : ∀ e ∈ entries.entries, e.2.name = e.1

namespace Catalog

def list (c : Catalog) : List CatalogEntry := c.entries.entries.map Prod.snd

theorem named_insert {entries : GoMap CatalogEntry} (named : ∀ e ∈ entries.entries, e.2.name = e.1)
    (entry : CatalogEntry) : ∀ e ∈ (entries.insert entry.name entry).entries, e.2.name = e.1 := by
  intro e member
  rw [SortedMap.mem_entries,SortedMap.lookup_insert] at member
  split_ifs at member with here
  · rw [here,← Option.some.inj member]
  · exact named e ((SortedMap.mem_entries e).mpr member)

theorem named_erase {entries : GoMap CatalogEntry} (named : ∀ e ∈ entries.entries, e.2.name = e.1) (name : Bytes) :
    ∀ e ∈ (entries.erase name).entries, e.2.name = e.1 := by
  intro e member
  rw [SortedMap.mem_entries,SortedMap.lookup_erase] at member
  split_ifs at member
  exact named e ((SortedMap.mem_entries e).mpr member)

/-- The loop of `OpenCatalog` over the entries of the file. -/
def add (c : Catalog) : List CatalogEntry → Except Error Catalog
  | [] => .ok c
  | entry::entries =>
    if entry.name = [] ∨ entry.path = [] then .error .invalidCatalogEntry
    else if (c.entries.lookup entry.name).isSome then .error (.duplicateCatalogTable entry.name)
    else
      match entry.schema.validate with
      | .error e => .error (.catalogTable entry.name e)
      | .ok () => add {c with
          entries := c.entries.insert entry.name entry
          named := named_insert c.named entry} entries

/-- `OpenCatalog`. Where there is no file, none is made. -/
def «open» : Option CatalogFile → Except Error Catalog
  | none => .ok ⟨∅,none,fun _ member => nomatch member⟩
  | some none => .error .decodeCatalog
  | some (some entries) => add ⟨∅,some (some entries),fun _ member => nomatch member⟩ entries

def save (c : Catalog) : Catalog := {c with file := some (some c.list)}

def set (c : Catalog) (entry : CatalogEntry) : Except Error Catalog :=
  if entry.name = [] ∨ entry.path = [] then .error .catalogRequired
  else
    match entry.schema.validate with
    | .error e => .error e
    | .ok () => .ok (save {c with
        entries := c.entries.insert entry.name entry
        named := named_insert c.named entry})

def delete (c : Catalog) (name : Bytes) : Catalog :=
  save {c with
    entries := c.entries.erase name
    named := named_erase c.named name}

end Catalog
end GoDb
