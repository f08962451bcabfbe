import GoDb.Schema

/-! The errors the modelled code returns. A constructor stands for one call of
`fmt.Errorf`, whose format string its comment gives, and carries its arguments. -/
namespace GoDb

inductive Error
  -- "reading page %d: %w" and "page %d does not exist (numPages=%d)"
  | readingPage (id : Nat)
  | noSuchPage (id numPages : Nat)
  -- "evicting page %d: %w"
  | evicting (id : Nat) (cause : Error)
  -- "record header out of bounds at offset %d" and "record body out of bounds at offset %d"
  | recordHeader (offset : Nat)
  | recordBody (offset : Nat)
  -- "page full" and "record too large for an empty page: %w"
  | pageFull
  | recordTooLarge (cause : Error)
  -- "page %d has mismatched header ID", "page %d has invalid free offset %d",
  -- "page %d points to nonexistent page %d" and "page %d: %w"
  | mismatchedHeader (id : Nat)
  | invalidFreeOffset (id free : Nat)
  | danglingPage (id next : Nat)
  | page (id : Nat) (cause : Error)
  -- "validate database: %w" and "WAL recovery: %w"
  | validateDatabase (cause : Error)
  | walRecovery (cause : Error)
  -- "WAL record too large", "invalid WAL magic", "invalid WAL record length", "WAL checksum mismatch",
  -- "unknown WAL operation %d", "invalid transaction WAL key" and "invalid transaction commit"
  | walRecordTooLarge
  | walMagic
  | walLength
  | walChecksum
  | walOperation (op : UInt8)
  | walTransactionKey
  | walCommit
  -- "cannot compact while snapshots are active" and "index mismatch for key %q"
  | activeSnapshots
  | indexMismatch (key : Bytes)
  -- "invalid or duplicate column %q" and "schema has no columns"
  | invalidColumn (name : Bytes)
  | noColumns
  -- "row has wrong number of columns", "missing column %q", "column %q may not be NULL" and
  -- "column %q expects int", and so on for the other types
  | wrongColumnCount
  | missingColumn (name : Bytes)
  | mayNotBeNull (name : Bytes)
  | expects (name : Bytes) (type : ColumnType)
  -- "row missing NULL bitmap" and "trailing row data: schema consumed %d of %d bytes"
  | missingBitmap
  | trailingData (consumed size : Nat)
  -- "column %q (int): need 8 bytes at offset %d, row has %d bytes", for floats and timestamps without the
  -- numbers; "column %q (string): missing 4-byte length at offset %d, row has %d bytes" and
  -- "column %q (string): length %d exceeds row data at offset %d (row has %d bytes)", for bytes without the
  -- numbers; "column %q (bool): expected one byte with value 0 or 1 at offset %d (row has %d bytes)"
  | needBytes (name : Bytes) (type : ColumnType) (offset size : Nat)
  | missingLength (name : Bytes) (type : ColumnType) (offset size : Nat)
  | invalidLength (name : Bytes) (type : ColumnType) (length offset size : Nat)
  | invalidBool (name : Bytes) (offset size : Nat)
  -- "unique constraint failed: %s"
  | uniqueFailed (name : Bytes)
  -- "unknown table %q", "table %q already exists" and "table has no columns"
  | unknownTable (name : Bytes)
  | tableExists (name : Bytes)
  | tableWithoutColumns
  -- "unknown column %q", "value has wrong type for %s" and "invalid timestamp %q"
  | unknownColumn (name : Bytes)
  | wrongType (type : ColumnType)
  | invalidTimestamp (text : Bytes)
  -- "insert must include key column %q" and "foreign key constraint failed: %s"
  | keyRequired (name : Bytes)
  | foreignKeyFailed (name : Bytes)
  -- "transaction already in progress", "no transaction in progress" and "transaction conflict on key %q"
  | transactionInProgress
  | noTransaction
  | conflict (key : Bytes)
  -- "empty request" and "transaction rolled back: %w"
  | emptyRequest
  | rolledBack (cause : Error)
  -- "reading table %q: %w (database rows may have been created with a different schema; ...)"
  | readingTable (name : Bytes) (cause : Error)
  -- "group column %q has no rows" and "aggregate %s requires numeric column"
  | groupColumn (expr : Bytes)
  | aggregateNumeric (expr : Bytes)
  -- "decode catalog: %w", "invalid catalog entry", "duplicate catalog table %q", "catalog table %q: %w" and
  -- "catalog table name and path are required"
  | decodeCatalog
  | invalidCatalogEntry
  | duplicateCatalogTable (name : Bytes)
  | catalogTable (name : Bytes) (cause : Error)
  | catalogRequired
  -- What `os.Stat` returns for a file that is not there, and "index sidecar: %w"
  | noFile
  | indexSidecar (cause : Error)
  -- "backup destination must differ from source" and "restore destination must differ from source",
  -- "validate backup source: %w" and "validate backup: %w", and "%s %s: %w" with the operation and a suffix
  | backupDestination
  | restoreDestination
  | validateBackupSource (cause : Error)
  | validateBackup (cause : Error)
  | copying (operation suffix : Bytes) (cause : Error)
  -- No errors of the source: the loop does not end, and the program panics.
  | diverges
  | panics
  deriving DecidableEq, Repr

end GoDb
