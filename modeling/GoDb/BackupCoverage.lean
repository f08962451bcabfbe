import GoDb.Backup
import GoDb.ExecutorInvariant

/-! What a restored database is. A bundle of files comes back as it was saved, and nothing
outside of it: the tables with files of their own stay as they are, and so does a catalog
where none was saved. -/
namespace GoDb
open Foundation Outcome

namespace Bundle

/-- The data file, the log and the index file are as `Close` leaves them. -/
structure Closed (b : Bundle) (content : List Block) (entries : List BTree.Entry) : Prop where
  pages : PagesOk content
  sorted : SortedEntries.Increasing entries
  fits : ∀ e ∈ entries, Store.Fits e.1 e.2
  data : b .data = some content
  wal : b .wal = some []
  idx : b .idx = some entries

variable {b : Bundle} {content : List Block} {entries : List BTree.Entry}

theorem Closed.image (closed : b.Closed content entries) : b.image = ⟨content,[],some entries⟩ := by
  rw [Bundle.image,closed.data,closed.wal,closed.idx]
  rfl

theorem Closed.withImage (closed : b.Closed content entries) (i : Image) :
    (b.withImage i).withImage ⟨content,[],some entries⟩ = b := by
  funext suffix
  cases suffix with
  | data => exact closed.data.symm
  | wal => exact closed.wal.symm
  | idx => exact closed.idx.symm
  | catalog => rfl

def above (b other : Bundle) : Bundle := fun suffix => (b suffix).or (other suffix)

theorem Closed.above (closed : b.Closed content entries) (other : Bundle) : (b.above other).Closed content entries := by
  refine ⟨closed.pages,closed.sorted,closed.fits,?_,?_,?_⟩
  · rw [Bundle.above,closed.data,Option.some_or]
  · rw [Bundle.above,closed.wal,Option.some_or]
  · rw [Bundle.above,closed.idx,Option.some_or]

end Bundle

variable {operation source destination : Bytes}

namespace Files

variable {files files' : Files} {db path : Bytes} {content : List Block} {entries : List BTree.Entry}

theorem openStore_closed (closed : (files path).Closed content entries) :
    ∃ s i, (openStore path).exec files = (.ok s,Function.update files path ((files path).withImage i)) ∧
      s.Ok content ∧ s.index.entries = entries := by
  obtain ⟨s,opened,ok,same,-⟩ := Store.open_clean closed.pages closed.sorted closed.fits
  refine ⟨s,s.image,?_,ok,same⟩
  unfold openStore onPath
  rw [exec_within]
  dsimp only
  rw [closed.image,opened]

theorem closeStore_exec {s : Store} (ok : s.Ok content) (path : Bytes) (files : Files) :
    (closeStore path s).exec files =
      (.ok (),Function.update files path ((files path).withImage ⟨content,[],some s.index.entries⟩)) := by
  obtain ⟨s',shut,-,-,image⟩ := Store.flush_exec ok
  have done : Store.close.exec s = (.ok (),s') := shut
  unfold closeStore onPath
  rw [exec_within]
  dsimp only
  rw [done,image]

theorem validateBackup_closed (closed : (files path).Closed content entries)
    (done : (validateBackup path).exec files = (.ok (),files')) : files' = files := by
  obtain ⟨s,i,opened,ok,same⟩ := openStore_closed closed
  have closing : (closeStore path s).exec (Function.update files path ((files path).withImage i)) = (.ok (),files) := by
    rw [closeStore_exec ok,same,Function.update_self,closed.withImage,Function.update_idem,Function.update_eq_self]
  unfold validateBackup at done
  rw [exec_bind_ok (exec_get files)] at done
  obtain ⟨_,mid,there,done⟩ := bind_success done
  rw [exec_refuse] at there
  obtain ⟨-,rfl⟩ := Prod.mk.inj there
  rw [exec_bind_ok opened,exec_bind_ok closing,exec_bind_ok (exec_get _)] at done
  obtain ⟨_,mid,sidecar,done⟩ := bind_success done
  rw [exec_refuse] at sidecar
  obtain ⟨-,rfl⟩ := Prod.mk.inj sidecar
  obtain ⟨_,-,done⟩ := of_bind_success done
  exact (Prod.mk.inj done).2.symm

theorem rename_stage {b : Bundle} {suffixes : List Suffix} {staged : List ((suffix : Suffix) × suffix.Content)}
    (done : stage b operation suffixes = .ok staged) (other : Bundle) (suffix : Suffix) :
    rename staged other suffix = if suffix ∈ suffixes then b.above other suffix else other suffix := by
  induction suffixes generalizing staged other with
  | nil =>
    obtain rfl := Except.ok.inj done
    rfl
  | cons first suffixes ih =>
    unfold stage at done
    split at done
    · rename_i missing
      split_ifs at done
      rw [ih done]
      by_cases here : suffix = first
      · subst here
        simp [Bundle.above,missing]
      · simp [here]
    · rename_i content found
      split at done
      · cases done
      · rename_i rest copied
        obtain rfl := Except.ok.inj done
        change rename rest (Function.update other first (some content)) suffix = _
        rw [ih copied]
        by_cases here : suffix = first
        · subst here
          simp [Bundle.above,found]
        · simp [here,Bundle.above]

theorem copyBundle_done (done : (copyBundle source destination operation).exec files = (.ok (),files')) :
    files' = Function.update files destination ((files source).above (files destination)) := by
  unfold copyBundle at done
  rw [exec_bind_ok (exec_get files)] at done
  obtain ⟨staged,copied,done⟩ := of_bind_success done
  obtain ⟨-,rfl⟩ := Prod.mk.inj done
  have copy : rename staged (files destination) = (files source).above (files destination) := by
    funext suffix
    rw [rename_stage copied,if_pos (by cases suffix <;> decide)]
  exact congrArg (Function.update files destination) copy

theorem wrap_done {context : Error → Error} {x : FilesM Unit} (done : (wrap context x).exec files = (.ok (),files')) :
    x.exec files = (.ok (),files') := by
  unfold wrap at done
  rw [exec_tryCatch] at done
  split at done
  · rename_i found
    rw [found,done]
  · cases done

private theorem copied_done {same : Error} {context : Error → Error} (closed : (files source).Closed content entries)
    (done : (do
      Proc.refuse (source = destination) same
      wrap context (validateBackup source)
      copyBundle source destination operation : FilesM Unit).exec files = (.ok (),files')) :
    source ≠ destination ∧
      files' = Function.update files destination ((files source).above (files destination)) := by
  obtain ⟨_,_,apart,rest⟩ := bind_success done
  rw [exec_refuse] at apart
  obtain ⟨answer,rfl⟩ := Prod.mk.inj apart
  split_ifs at answer with equal
  obtain ⟨_,_,valid,copied⟩ := bind_success rest
  rw [validateBackup_closed closed (wrap_done valid)] at copied
  exact ⟨equal,copyBundle_done copied⟩

theorem backup_done (closed : (files source).Closed content entries)
    (done : (backup source destination).exec files = (.ok (),files')) :
    source ≠ destination ∧
      files' = Function.update files destination ((files source).above (files destination)) :=
  copied_done closed done

theorem restore_done (closed : (files source).Closed content entries)
    (done : (restore source destination).exec files = (.ok (),files')) :
    source ≠ destination ∧
      files' = Function.update files destination ((files source).above (files destination)) :=
  copied_done closed done

variable {s s' : Store} {entry : CatalogEntry} {listed : List CatalogEntry} {tables : List TableRows}

theorem openTables_cons :
    ((openTables db s (entry::listed)).exec files).1 = .ok tables ↔
      ∃ t files₁ rows rest, (openEntry db s entry).exec files = (.ok t,files₁) ∧ t.scan = .ok rows ∧
        ((openTables db s listed).exec files₁).1 = .ok rest ∧ tables = (entry.name,t.schema,rows)::rest := by
  constructor
  · intro done
    obtain ⟨t,files₁,opened,rest⟩ := bind_success (Prod.ext done rfl)
    obtain ⟨rows,scanned,rest⟩ := of_bind_success rest
    obtain ⟨more,_,others,rest⟩ := bind_success rest
    obtain ⟨made,-⟩ := Prod.mk.inj rest
    refine ⟨t,files₁,rows,more,opened,scanned,?_,(Except.ok.inj made).symm⟩
    rw [others]
  · rintro ⟨t,files₁,rows,rest,opened,scanned,others,rfl⟩
    unfold openTables
    rw [exec_bind_ok opened,exec_of_bind scanned,exec_bind_ok (Prod.ext others rfl)]
    rfl

def ownTables (db : Bytes) (listed : List CatalogEntry) : FilesM (List TableRows) :=
  openTables db Store.created (listed.filter fun entry => entry.path ≠ db)

theorem openEntry_own (own : entry.path ≠ db) (s s' : Store) : openEntry db s entry = openEntry db s' entry := by
  unfold openEntry
  rw [if_neg own,if_neg own]

theorem scan_new {schema : Schema} {t : Table} (made : Table.new s schema = .ok t) :
    t.scan = schema.decodeAll (s.index.entries.map Prod.snd) := by
  obtain ⟨-,-,stored,same⟩ := Executor.new_same made
  unfold Table.scan
  rw [stored,same]

theorem new_main {schema : Schema} {t : Table} {rows : List Row} (same : s'.index.entries = s.index.entries)
    (made : Table.new s schema = .ok t) (scanned : t.scan = .ok rows) :
    ∃ t', Table.new s' schema = .ok t' ∧ t'.scan = .ok rows ∧ t'.schema = t.schema := by
  obtain ⟨valid,some,-,is⟩ := Executor.new_same made
  rw [scan_new made] at scanned
  have read : (Table.unindexed s' schema).scan = .ok rows := by
    change schema.decodeAll (s'.index.entries.map Prod.snd) = _
    rw [same,scanned]
  obtain ⟨t',again⟩ : ∃ t', Table.new s' schema = .ok t' := by
    unfold Table.new
    rw [valid]
    dsimp only
    rw [if_neg some,read]
    exact ⟨_,rfl⟩
  refine ⟨t',again,?_,?_⟩
  · rw [scan_new again,same,scanned]
  · rw [(Executor.new_same again).2.2.2,is]

theorem openTables_iff (same : s'.index.entries = s.index.entries)
    (before : ((openTables db s listed).exec files).1 = .ok tables) (files' : Files) :
    ∃ own, ((ownTables db listed).exec files).1 = .ok own ∧
      (((openTables db s' listed).exec files').1 = .ok tables ↔ ((ownTables db listed).exec files').1 = .ok own) := by
  induction listed generalizing files files' tables with
  | nil =>
    obtain rfl := Except.ok.inj before
    exact ⟨[],rfl,Iff.rfl⟩
  | cons entry listed ih =>
    obtain ⟨t,files₁,rows,rest,opened,scanned,others,rfl⟩ := openTables_cons.mp before
    by_cases main : entry.path = db
    · have skipped : ownTables db (entry::listed) = ownTables db listed := by
        unfold ownTables
        rw [List.filter_cons_of_neg (by simpa using main)]
      rw [skipped]
      unfold openEntry at opened
      rw [if_pos main,exec_of] at opened
      obtain ⟨made,rfl⟩ := Prod.mk.inj opened
      obtain ⟨t',again,read,schema⟩ := new_main same made scanned
      obtain ⟨own,first,iff⟩ := ih others files'
      have entered : (openEntry db s' entry).exec files' = (.ok t',files') := by
        unfold openEntry
        rw [if_pos main,exec_of,again]
      refine ⟨own,first,Iff.trans ?_ iff⟩
      constructor
      · intro done
        obtain ⟨t₂,files₂,rows₂,rest₂,opened₂,-,others₂,shape⟩ := openTables_cons.mp done
        obtain ⟨-,rfl⟩ := Prod.mk.inj (entered.symm.trans opened₂)
        rw [others₂,(List.cons.inj shape).2]
      · intro done
        exact openTables_cons.mpr ⟨t',files',rows,rest,entered,read,done,by rw [schema]⟩
    · have kept : ownTables db (entry::listed) =
          openTables db Store.created (entry::listed.filter fun entry => entry.path ≠ db) := by
        unfold ownTables
        rw [List.filter_cons_of_pos (by simpa using main)]
      rw [openEntry_own main s Store.created] at opened
      obtain ⟨own,first,-⟩ := ih others files'
      rw [kept]
      refine ⟨_,openTables_cons.mpr ⟨t,files₁,rows,own,opened,scanned,first,rfl⟩,?_⟩
      rw [openTables_cons,openTables_cons,openEntry_own main s' Store.created]
      -- What follows a table is compared on the files that its opening leaves.
      have follows : ∀ files₂, ((openTables db s' listed).exec files₂).1 = .ok rest ↔
          ((ownTables db listed).exec files₂).1 = .ok own := by
        intro files₂
        obtain ⟨own₂,second,iff⟩ := ih others files₂
        rw [iff,Except.ok.inj (first.symm.trans second)]
      constructor
      · rintro ⟨t₂,files₂,rows₂,rest₂,opened₂,scanned₂,others₂,shape⟩
        obtain ⟨same,rfl⟩ := List.cons.inj shape
        exact ⟨t₂,files₂,rows₂,own,opened₂,scanned₂,(follows files₂).mp others₂,by rw [same]⟩
      · rintro ⟨t₂,files₂,rows₂,own₂,opened₂,scanned₂,others₂,shape⟩
        obtain ⟨same,rfl⟩ := List.cons.inj shape
        exact ⟨t₂,files₂,rows₂,rest,opened₂,scanned₂,(follows files₂).mpr others₂,by rw [same]⟩

def Within {α : Type} (path : Bytes) (x : FilesM α) : Prop :=
  ∃ g : Bundle → Except Error α × Bundle, ∀ files, x.exec files = (onPath path g).exec files

theorem within_of {α : Type} (path : Bytes) (r : Except Error α) : Within path (Proc.of r) := by
  refine ⟨fun b => (r,b),fun files => ?_⟩
  unfold onPath
  rw [exec_within,exec_of,Function.update_eq_self]

theorem within_bind {α β : Type} {x : FilesM α} {f : α → FilesM β} (first : Within path x)
    (next : ∀ a, Within path (f a)) : Within path (x >>= f) := by
  obtain ⟨g,first⟩ := first
  choose h next using next
  refine ⟨fun b => match g b with
    | (.ok a,b') => h a b'
    | (.error e,b') => (.error e,b'),fun files => ?_⟩
  rw [exec_bind,first]
  unfold onPath at first next ⊢
  rw [exec_within,exec_within]
  rcases g (files path) with ⟨e | a,b⟩
  · rfl
  · dsimp only
    rw [next,exec_within,Function.update_self,Function.update_idem]

theorem within_attempt {x : FilesM Unit} (within : Within path x) : Within path (tryCatch x fun _ => pure ()) := by
  obtain ⟨g,same⟩ := within
  refine ⟨fun b => (.ok (),(g b).2),fun files => ?_⟩
  rw [exec_tryCatch,same]
  unfold onPath
  rw [exec_within,exec_within]
  dsimp only
  rcases g (files path) with ⟨_ | _,b⟩
  · rfl
  · rfl

theorem openTable_within (path : Bytes) (schema : Schema) : Within path (openTable path schema) := by
  unfold openTable
  apply within_bind ⟨_,fun _ => rfl⟩
  intro s
  split
  · exact within_of path (.ok _)
  · rename_i e _
    apply within_bind (within_attempt ⟨_,fun _ => rfl⟩)
    intro _
    exact within_of path (.error e)

theorem openTables_apart (own : ∀ entry ∈ listed, entry.path ≠ db) (same : ∀ path, path ≠ db → files' path = files path) :
    ((openTables db s listed).exec files').1 = ((openTables db s listed).exec files).1 := by
  induction listed generalizing files files' with
  | nil => rfl
  | cons entry listed ih =>
    obtain ⟨apart,own⟩ := List.forall_mem_cons.mp own
    obtain ⟨g,within⟩ := openTable_within entry.path entry.schema
    have opened : ∀ files, (openEntry db s entry).exec files = (onPath entry.path g).exec files := by
      intro files
      unfold openEntry
      rw [if_neg apart,within]
    unfold openTables
    rw [exec_bind,exec_bind,opened,opened]
    unfold onPath
    rw [exec_within,exec_within,same entry.path apart]
    rcases g (files entry.path) with ⟨e | t,b⟩
    · rfl
    · dsimp only
      rw [exec_bind,exec_bind,exec_of,exec_of]
      cases t.scan with
      | error e => rfl
      | ok rows =>
        dsimp only
        rw [answer_bind_pure,answer_bind_pure]
        apply congrArg (Except.map _)
        apply ih own
        intro path other
        by_cases here : path = entry.path
        · rw [here,Function.update_self,Function.update_self]
        · rw [Function.update_of_ne here,Function.update_of_ne here,same path other]

theorem ownTables_apart (listed : List CatalogEntry) (same : ∀ path, path ≠ db → files' path = files path) :
    ((ownTables db listed).exec files').1 = ((ownTables db listed).exec files).1 :=
  openTables_apart (fun _ member => by simpa using List.of_mem_filter member) same

def listing (b : Bundle) : Except Error (List CatalogEntry) := (Catalog.open (b .catalog)).map Catalog.list

theorem serve_closed (closed : (files db).Closed content entries) (lists : listing (files db) = .ok listed) :
    ∃ s files', s.index.entries = entries ∧ (∀ path, path ≠ db → files' path = files path) ∧
      ((serve db).exec files).1 = ((openTables db s listed).exec files').1 := by
  obtain ⟨s,i,opened,-,same⟩ := openStore_closed closed
  refine ⟨s,Function.update files db ((files db).withImage i),same,fun path other => Function.update_of_ne other _ _,?_⟩
  unfold listing at lists
  unfold serve
  rw [exec_bind_ok opened,exec_bind_ok (exec_get _),Function.update_self]
  change (Proc.exec (Proc.of (Catalog.open (files db .catalog)) >>= _) _).1 = _
  cases there : Catalog.open (files db .catalog) with
  | error e =>
    rw [there] at lists
    cases lists
  | ok catalog =>
    rw [there] at lists
    obtain rfl := Except.ok.inj lists
    rfl

/-- A database that was closed is saved, the files change in any way but for the copy, and the copy is restored. The
catalog is then the one that was saved; where there was none, it is one that the destination of the backup had, or the
one the database has by now. No file at another path comes back. So, where the catalog lists the tables it listed then,
the tables are those of the backup just when the tables with files of their own are by themselves. -/
theorem restore_covers_iff {files₁ files₂ files₃ : Files} {b : Bytes} {before : List TableRows}
    (closed : (files db).Closed content entries) (saved : (backup db b).exec files = (.ok (),files₁))
    (kept : files₂ b = files₁ b) (restored : (restore b db).exec files₂ = (.ok (),files₃))
    (served : ((serve db).exec files).1 = .ok before) :
    files₃ db .catalog = ((files db .catalog).or (files b .catalog)).or (files₂ db .catalog) ∧
      (∀ path, path ≠ db → files₃ path = files₂ path) ∧
      ∀ listed, listing (files db) = .ok listed → listing (files₃ db) = .ok listed →
        (((serve db).exec files₃).1 = .ok before ↔
          ((ownTables db listed).exec files₃).1 = ((ownTables db listed).exec files).1) := by
  obtain ⟨apart,rfl⟩ := backup_done closed saved
  rw [Function.update_self] at kept
  have copy : (files₂ b).Closed content entries := kept ▸ closed.above _
  obtain ⟨-,rfl⟩ := restore_done copy restored
  have again : (Function.update files₂ db ((files₂ b).above (files₂ db)) db).Closed content entries := by
    rw [Function.update_self]
    exact copy.above _
  refine ⟨?_,fun path other => Function.update_of_ne other _ _,?_⟩
  · rw [Function.update_self,kept]
    rfl
  · intro listed lists lists'
    obtain ⟨s,now,same,outside,reads⟩ := serve_closed closed lists
    obtain ⟨s',later,same',outside',reads'⟩ := serve_closed again lists'
    rw [reads] at served
    obtain ⟨own,first,iff⟩ := openTables_iff (same'.trans same.symm) served later
    rw [reads',iff,ownTables_apart listed outside',← ownTables_apart listed outside,first]

def emptyStore (catalog : Option CatalogFile) : Bundle
  | .data => some []
  | .wal => some []
  | .idx => some []
  | .catalog => catalog

def tableAt (path : String) : CatalogEntry := ⟨ascii "t",ascii path,⟨[⟨ascii "id",.int⟩],∅⟩⟩

def insertOne (path : String) : FilesM Unit := do
  let t ← openTable (ascii path) (tableAt path).schema
  let (result,t) := (Table.insert (ascii "1") ((∅ : Row).insert (ascii "id") (.int 1))).exec t
  Proc.of result
  closeStore (ascii path) t.store

def onlyDb (catalog : Option CatalogFile) : Files := Function.update (fun _ _ => none) (ascii "db") (emptyStore catalog)

theorem restore_covers_removed :
    let files := onlyDb (some (some [tableAt "db"]))
    let saved := ((backup (ascii "db") (ascii "b")).exec files).2
    let restored := ((restore (ascii "b") (ascii "db")).exec (Function.update saved (ascii "db") fun _ => none)).2
    ((serve (ascii "db")).exec restored).1 = .ok [(ascii "t",(tableAt "db").schema,[])] := by
  intro files saved restored
  have closed : (files (ascii "db")).Closed [] [] :=
    ⟨PagesOk.nil,List.Pairwise.nil,List.forall_mem_nil _,rfl,rfl,rfl⟩
  have backed : (backup (ascii "db") (ascii "b")).exec files = (.ok (),saved) :=
    exec_of_toOption (by decide +kernel)
  have back : (restore (ascii "b") (ascii "db")).exec (Function.update saved (ascii "db") fun _ => none) =
      (.ok (),restored) := exec_of_toOption (by decide +kernel)
  have served : ((serve (ascii "db")).exec files).1 = .ok [(ascii "t",(tableAt "db").schema,[])] :=
    eq_ok_of_toOption (by decide +kernel)
  obtain ⟨-,-,covers⟩ := restore_covers_iff closed backed (Function.update_of_ne (by decide) _ _) back served
  have lists : listing (files (ascii "db")) = .ok [tableAt "db"] := eq_ok_of_toOption (by decide +kernel)
  have lists' : listing (restored (ascii "db")) = .ok [tableAt "db"] := eq_ok_of_toOption (by decide +kernel)
  have alone : ∀ files, ((ownTables (ascii "db") [tableAt "db"]).exec files).1 = .ok [] := fun _ => rfl
  apply (covers _ lists lists').mpr
  rw [alone,alone]

/-- A row that was inserted after the backup is there after the restore; so is a table, when there was no catalog. -/
theorem restored_with_later_row :
    let table := tableAt "t.db"
    let files := Function.update (onlyDb (some (some [table]))) (ascii "t.db") (emptyStore none)
    ((serve (ascii "db")).exec files).1 = .ok [(ascii "t",table.schema,[])] ∧
      ((do
        backup (ascii "db") (ascii "b")
        insertOne "t.db"
        restore (ascii "b") (ascii "db")
        serve (ascii "db") : FilesM (List TableRows)).exec files).1 =
        .ok [(ascii "t",table.schema,[(∅ : Row).insert (ascii "id") (.int 1)])] ∧
      ((serve (ascii "db")).exec (onlyDb none)).1 = .ok [] ∧
      ((do
        backup (ascii "db") (ascii "b")
        modify fun files => Function.update files (ascii "db") (emptyStore (some (some [table])))
        restore (ascii "b") (ascii "db")
        serve (ascii "db") : FilesM (List TableRows)).exec (onlyDb none)).1 = .ok [(ascii "t",table.schema,[])] := by
  intro table files
  constructor
  · apply eq_ok_of_toOption
    decide +kernel
  · constructor
    · apply eq_ok_of_toOption
      decide +kernel
    · constructor <;> apply eq_ok_of_toOption <;> decide +kernel

/-- The files at other paths stay. -/
def Spares (path : Bytes) (files files' : Files) : Prop := ∀ other, other ≠ path → files' other = files other

theorem spares (path : Bytes) : Frame (Spares path) :=
  ⟨fun _ _ _ => rfl,fun first second other apart => (second other apart).trans (first other apart)⟩

theorem onPath_spares {α : Type} (path : Bytes) (x : Bundle → Except Error α × Bundle) :
    Proc.Keeps (Spares path) (onPath path x) := fun _ _ apart => Function.update_of_ne apart _ _

theorem validateBackup_spares (path : Bytes) : Proc.Keeps (Spares path) (validateBackup path) := by
  have frame := spares path
  refine Keeps.bind frame (Keeps.get frame) fun _ => Keeps.bind frame (Keeps.refuse frame _ _) fun _ => ?_
  refine Keeps.bind frame (onPath_spares path _) fun _ => Keeps.bind frame (onPath_spares path _) fun _ => ?_
  refine Keeps.bind frame (Keeps.get frame) fun _ => Keeps.bind frame (Keeps.refuse frame _ _) fun _ => ?_
  exact Keeps.of_bind frame fun _ _ => Keeps.pure frame _

theorem copyBundle_refuses (source destination operation : Bytes) :
    Proc.Refuses (Spares source) (copyBundle source destination operation) := by
  have frame := spares source
  apply Refuses.bind frame (Keeps.get frame)
  intro files
  apply Refuses.bind frame (Keeps.of frame _)
  intro staged _ _ _ failed
  cases failed

theorem copying_refuses (source destination operation : Bytes) (same : Error) (context : Error → Error) :
    Proc.Refuses (Spares source) (do
      Proc.refuse (source = destination) same
      wrap context (validateBackup source)
      copyBundle source destination operation : FilesM Unit) := by
  have frame := spares source
  apply Refuses.bind frame (Keeps.refuse frame _ _)
  intro _
  apply Refuses.bind frame (Keeps.tryCatch frame (validateBackup_spares source) fun _ => Keeps.throw frame _)
  intro _
  exact copyBundle_refuses source destination operation

end Files
end GoDb
