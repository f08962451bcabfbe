import GoDb.Catalog

/-! `kv/backup.go`, on the files of a machine, and the start of a server on a database, in
`cmd/go-db/main.go`. The files of a database are those with the suffixes at its path; the
tables that CREATE TABLE has made are at paths of their own. -/
namespace GoDb
open Foundation Outcome

inductive Suffix
  | data
  | wal
  | idx
  | catalog
  deriving DecidableEq

/-- What the file with this suffix holds. A data file that is no sequence of pages cannot be written here. -/
abbrev Suffix.Content : Suffix → Type
  | .data => List Block
  | .wal => Bytes
  | .idx => List BTree.Entry
  | .catalog => CatalogFile

def Suffix.text : Suffix → Bytes
  | .data => []
  | .wal => ascii ".wal"
  | .idx => ascii ".idx"
  | .catalog => ascii ".catalog"

/-- The files at one path. -/
abbrev Bundle := (suffix : Suffix) → Option suffix.Content

/-- No path in use is another one with a suffix behind it. -/
abbrev Files := Bytes → Bundle

abbrev FilesM := Proc Error Files

namespace Bundle

def image (b : Bundle) : Image := ⟨(b .data).getD [],(b .wal).getD [],b .idx⟩

def withImage (b : Bundle) (i : Image) : Bundle
  | .data => some i.pages
  | .wal => some i.wal
  | .idx => i.indexFile
  | .catalog => b .catalog

end Bundle

namespace Files

def onPath {α : Type} (path : Bytes) (x : Bundle → Except Error α × Bundle) : FilesM α :=
  Proc.within (fun files => files path) (fun files b => Function.update files path b) x

/-- `kv.Open`, which makes the data file and the log if they are not there. -/
def openStore (path : Bytes) : FilesM Store := onPath path fun b =>
  let (result,i) := Store.open b.image
  (result,b.withImage i)

def closeStore (path : Bytes) (s : Store) : FilesM Unit := onPath path fun b =>
  let (result,s) := Store.close.exec s
  (result,b.withImage s.image)

def validateBackup (path : Bytes) : FilesM Unit := do
  let files ← get
  Proc.refuse (files path .data).isNone .noFile
  let s ← openStore path
  closeStore path s
  let files ← get
  Proc.refuse (files path .idx).isNone (.indexSidecar .noFile)
  let _ ← Proc.of (Catalog.open (files path .catalog))

def backupSuffixes : List Suffix := [.data,.wal,.idx,.catalog]

def stage (b : Bundle) (operation : Bytes) : List Suffix → Except Error (List ((suffix : Suffix) × suffix.Content))
  | [] => .ok []
  | suffix::suffixes =>
    match b suffix with
    | none =>
      if suffix = .catalog then stage b operation suffixes
      else .error (.copying operation suffix.text .noFile)
    | some content =>
      match stage b operation suffixes with
      | .error e => .error e
      | .ok staged => .ok (⟨suffix,content⟩::staged)

def rename (staged : List ((suffix : Suffix) × suffix.Content)) (b : Bundle) : Bundle :=
  staged.foldl (fun b file => Function.update b file.1 (some file.2)) b

def copyBundle (source destination operation : Bytes) : FilesM Unit := do
  let files ← get
  let staged ← Proc.of (stage (files source) operation backupSuffixes)
  modify fun files => Function.update files destination (rename staged (files destination))

def wrap (context : Error → Error) (x : FilesM Unit) : FilesM Unit := tryCatch x fun e => throw (context e)

def backup (source destination : Bytes) : FilesM Unit := do
  Proc.refuse (source = destination) .backupDestination
  wrap .validateBackupSource (validateBackup source)
  copyBundle source destination (ascii "backup")

def restore (source destination : Bytes) : FilesM Unit := do
  Proc.refuse (source = destination) .restoreDestination
  wrap .validateBackup (validateBackup source)
  copyBundle source destination (ascii "restore")

def openTable (path : Bytes) (schema : Schema) : FilesM Table := do
  let s ← openStore path
  match Table.new s schema with
  | .ok t => pure t
  | .error e =>
    tryCatch (closeStore path s) fun _ => pure ()
    throw e

/-- A table of a server: its name, its schema, and the rows that `Scan` returns. -/
abbrev TableRows := Bytes × Schema × List Row

def openEntry (db : Bytes) (store : Store) (entry : CatalogEntry) : FilesM Table :=
  if entry.path = db then Proc.of (Table.new store entry.schema) else openTable entry.path entry.schema

/-- The loop of `serverCommand` over the catalog, with a `Scan` of each table. -/
def openTables (db : Bytes) (store : Store) : List CatalogEntry → FilesM (List TableRows)
  | [] => pure []
  | entry::entries => do
    let t ← openEntry db store entry
    let rows ← Proc.of t.scan
    let tables ← openTables db store entries
    pure ((entry.name,t.schema,rows)::tables)

def serve (db : Bytes) : FilesM (List TableRows) := do
  let store ← openStore db
  let files ← get
  let catalog ← Proc.of (Catalog.open (files db .catalog))
  openTables db store catalog.list

end Files
end GoDb
