import GoDb.BufferPool
import GoDb.Foundation.Keyed

/-! What the pool stands for over any disk: one block for each page number, the cached one
if the page is cached and that of the disk otherwise. A write to the disk may fail, and
then may leave anything in the place of its own page. -/
namespace GoDb
open Foundation

variable {δ : Type}

/-- What the disk holds under each number, and what the callbacks do to it. -/
structure Disk.Lawful (io : Disk δ) (content : δ → Nat → Option Block) : Prop where
  read : ∀ {d id block}, io.readDisk d id = .ok block → content d id = some block
  written : ∀ {d d' page}, io.writeDisk d page = (.ok (),d') →
    content d' = Function.update (content d) page.id (some page.data)
  failed : ∀ {d d' page e}, io.writeDisk d page = (.error e,d') → ∀ id, id ≠ page.id → content d' id = content d id

variable {id : Nat} {e : PoolEntry}

namespace BufferPool

variable {io : Disk δ} {content : δ → Nat → Option Block} {places : Nat} {b : BufferPool} {d : δ}

def logical (content : δ → Nat → Option Block) (b : BufferPool) (d : δ) (id : Nat) : Option Block :=
  match b.item id with
  | some e => some e.page.data
  | none => content d id

/-- Each page is cached once, there are no more of them than places, and a clean page is on the disk. -/
structure Coherent (content : δ → Nat → Option Block) (places : Nat) (b : BufferPool) (d : δ) : Prop where
  distinct : b.ids.Nodup
  capacity : b.capacity = places
  bound : b.entries.length ≤ b.capacity
  room : 1 ≤ b.capacity
  clean : ∀ e ∈ b.entries, e.dirty = false → content d e.page.id = some e.page.data

theorem item_some (distinct : b.ids.Nodup) : b.item id = some e ↔ e ∈ b.entries ∧ e.page.id = id :=
  Keyed.find_eq_some (fun e : PoolEntry => e.page.id) distinct

theorem item_none : b.item id = none ↔ id ∉ b.ids :=
  Keyed.find_eq_none (fun e : PoolEntry => e.page.id)

theorem item_front (b : BufferPool) (e : PoolEntry) (id : Nat) :
    (b.front e).item id = if id = e.page.id then some e else b.item id := by
  unfold item front
  by_cases same : id = e.page.id
  · rw [if_pos same,List.find?_cons_of_pos (by simp [same])]
  · rw [if_neg same,List.find?_cons_of_neg (by simpa using fun equal => same equal.symm),List.find?_filter]
    congr 1
    funext other
    by_cases here : other.page.id = id
    · simp [here,same]
    · simp [here]

theorem logical_front (b : BufferPool) (e : PoolEntry) (d : δ) :
    (b.front e).logical content d = Function.update (b.logical content d) e.page.id (some e.page.data) := by
  ext1 id
  rw [logical,item_front]
  by_cases same : id = e.page.id
  · rw [if_pos same,same,Function.update_self]
  · rw [if_neg same,Function.update_of_ne same]
    rfl

theorem logical_of_mem (distinct : b.ids.Nodup) (member : e ∈ b.entries) (d : δ) :
    b.logical content d e.page.id = some e.page.data := by
  rw [logical,(item_some distinct).mpr ⟨member,rfl⟩]

theorem length_front (b : BufferPool) (e : PoolEntry) : (b.front e).entries.length ≤ b.entries.length + 1 :=
  Nat.succ_le_succ (List.length_filter_le _ _)

theorem length_front_of_mem {other : PoolEntry} (member : other ∈ b.entries) (same : other.page.id = e.page.id) :
    (b.front e).entries.length ≤ b.entries.length := by
  apply Nat.succ_le_of_lt
  rw [List.length_filter_lt_length_iff_exists]
  exact ⟨other,member,by simp [same]⟩

theorem logical_disk {d' : δ} (outside : ∀ id, id ∉ b.ids → content d' id = content d id) :
    b.logical content d' = b.logical content d := by
  ext1 id
  unfold logical
  cases found : b.item id with
  | some e => rfl
  | none => exact outside id (item_none.mp found)

theorem ids_clean (b : BufferPool) (id : Nat) : (b.clean id).ids = b.ids := by
  unfold ids clean
  rw [List.map_map]
  apply List.map_congr_left
  intro e _
  dsimp only [Function.comp_apply]
  split_ifs <;> rfl

namespace Coherent

theorem front (coherent : b.Coherent content places d) (fits : (b.front e).entries.length ≤ b.capacity)
    (onDisk : e.dirty = false → content d e.page.id = some e.page.data) : (b.front e).Coherent content places d := by
  refine ⟨Keyed.nodup_front (fun e : PoolEntry => e.page.id) coherent.distinct e,coherent.capacity,fits,coherent.room,?_⟩
  intro other member
  rcases (Keyed.mem_front fun e : PoolEntry => e.page.id).mp member with rfl | ⟨member,-⟩
  · exact onDisk
  · exact coherent.clean other member

theorem front_item (coherent : b.Coherent content places d) (found : b.item id = some e) :
    (b.front e).Coherent content places d ∧ (b.front e).logical content d = b.logical content d := by
  obtain ⟨member,-⟩ := (item_some coherent.distinct).mp found
  constructor
  · exact coherent.front ((length_front_of_mem member rfl).trans coherent.bound)
      (coherent.clean e member)
  · rw [logical_front,← logical_of_mem coherent.distinct member d,Function.update_eq_self]

variable (lawful : io.Lawful content)
include lawful

theorem written (coherent : b.Coherent content places d) (member : e ∈ b.entries) {d' : δ}
    (write : io.writeDisk d e.page = (.ok (),d')) :
    b.Coherent content places d' ∧ b.logical content d' = b.logical content d ∧
      content d' e.page.id = some e.page.data := by
  have now := lawful.written write
  refine ⟨⟨coherent.distinct,coherent.capacity,coherent.bound,coherent.room,fun other there clean => ?_⟩,
    logical_disk fun id absent => ?_,?_⟩
  · by_cases same : other.page.id = e.page.id
    · have equal : other = e := List.inj_on_of_nodup_map coherent.distinct there member same
      rw [now,equal,Function.update_self]
    · rw [now,Function.update_of_ne same]
      exact coherent.clean other there clean
  · have other : id ≠ e.page.id := fun same => absent (same ▸ List.mem_map_of_mem member)
    rw [now,Function.update_of_ne other]
  · rw [now,Function.update_self]

theorem failed (coherent : b.Coherent content places d) (member : e ∈ b.entries) (dirty : e.dirty = true) {d' : δ}
    {cause : Error} (write : io.writeDisk d e.page = (.error cause,d')) :
    b.Coherent content places d' ∧ b.logical content d' = b.logical content d := by
  have others := lawful.failed write
  refine ⟨⟨coherent.distinct,coherent.capacity,coherent.bound,coherent.room,fun other there clean => ?_⟩,
    logical_disk fun id absent => ?_⟩
  · have different : other.page.id ≠ e.page.id := by
      intro same
      rw [List.inj_on_of_nodup_map coherent.distinct there member same,dirty] at clean
      cases clean
    rw [others _ different]
    exact coherent.clean other there clean
  · exact others id fun same => absent (same ▸ List.mem_map_of_mem member)

omit lawful

theorem evict (coherent : b.Coherent content places d) {init : List PoolEntry} (split : b.entries = init ++ [e])
    (onDisk : content d e.page.id = some e.page.data) :
    Coherent content places {b with entries := init} d ∧ logical content {b with entries := init} d = b.logical content d := by
  have distinct := coherent.distinct
  have bound := coherent.bound
  rw [ids,split,List.map_append] at distinct
  rw [split,List.length_append,List.length_singleton] at bound
  have kept : (init.map (·.page.id)).Nodup := (List.nodup_append.mp distinct).1
  have before : ∀ other ∈ init, other ∈ b.entries := fun other there => split ▸ List.mem_append_left _ there
  refine ⟨⟨kept,coherent.capacity,by dsimp only; omega,coherent.room,
    fun other there => coherent.clean other (before other there)⟩,?_⟩
  ext1 id
  have found : b.item id = (init.find? (·.page.id = id)).or (if e.page.id = id then some e else none) := by
    rw [item,split,List.find?_append,List.find?_singleton]
    by_cases same : e.page.id = id <;> simp [same]
  rw [logical,logical,found]
  change (match init.find? (·.page.id = id) with | some e => _ | none => _) = _
  cases init.find? (·.page.id = id) with
  | some other => rfl
  | none =>
    by_cases same : e.page.id = id
    · simp [same,← onDisk]
    · simp [same]

theorem cleaned (coherent : b.Coherent content places d) (member : e ∈ b.entries)
    (onDisk : content d e.page.id = some e.page.data) :
    (b.clean e.page.id).Coherent content places d ∧ (b.clean e.page.id).logical content d = b.logical content d := by
  have distinct : (b.clean e.page.id).ids.Nodup := (ids_clean b e.page.id).symm ▸ coherent.distinct
  have from_pool {other : PoolEntry} (there : other ∈ (b.clean e.page.id).entries) :
      ∃ old ∈ b.entries, old.page = other.page ∧ (old.page.id ≠ e.page.id → old.dirty = other.dirty) := by
    obtain ⟨old,cached,rfl⟩ := List.mem_map.mp there
    refine ⟨old,cached,?_,fun different => ?_⟩
    · split_ifs <;> rfl
    · rw [if_neg different]
  refine ⟨⟨distinct,coherent.capacity,(List.length_map _).trans_le coherent.bound,coherent.room,fun other there clean => ?_⟩,?_⟩
  · obtain ⟨old,there,page,dirty⟩ := from_pool there
    rw [← page]
    by_cases same : old.page.id = e.page.id
    · rw [List.inj_on_of_nodup_map coherent.distinct there member same]
      exact onDisk
    · exact coherent.clean old there ((dirty same).trans clean)
  · ext1 id
    unfold logical
    cases found : b.item id with
    | none =>
      have absent : (b.clean e.page.id).item id = none := item_none.mpr (ids_clean b _ ▸ item_none.mp found)
      rw [absent]
    | some old =>
      obtain ⟨there,same⟩ := (item_some coherent.distinct).mp found
      have now : (b.clean e.page.id).item id = some (if old.page.id = e.page.id then {old with dirty := false} else old) := by
        refine (item_some distinct).mpr ⟨List.mem_map_of_mem there,?_⟩
        split_ifs <;> exact same
      rw [now]
      split_ifs <;> rfl

end Coherent

/-- Where the error of a call comes from when a page is evicted. -/
def EvictionFailed (io : Disk δ) (d : δ) (e : Error) : Prop :=
  ∃ page cause, (io.writeDisk d page).1 = .error cause ∧ e = .evicting page.id cause

structure MadeRoom (io : Disk δ) (content : δ → Nat → Option Block) (places : Nat) (b : BufferPool) (d : δ)
    (result : Except Error Unit × BufferPool × δ) : Prop where
  coherent : result.2.1.Coherent content places result.2.2
  logical : result.2.1.logical content result.2.2 = b.logical content d
  ids : ∀ id ∈ result.2.1.ids, id ∈ b.ids
  room : result.1 = .ok () → result.2.1.entries.length < result.2.1.capacity
  failed : ∀ e, result.1 = .error e → EvictionFailed io d e

theorem makeRoom_made (lawful : io.Lawful content) (coherent : b.Coherent content places d) :
    MadeRoom io content places b d (b.makeRoomLocked io d) := by
  unfold makeRoomLocked
  by_cases room : b.entries.length < b.capacity
  · rw [if_pos room]
    exact ⟨coherent,rfl,fun _ member => member,fun _ => room,fun _ failed => nomatch failed⟩
  rw [if_neg room]
  have positive := coherent.room
  have bound := coherent.bound
  obtain ⟨init,e,split⟩ : ∃ init e, b.entries = init ++ [e] := by
    rcases List.eq_nil_or_concat' b.entries with empty | ⟨init,e,split⟩
    · rw [empty,List.length_nil] at room
      omega
    · exact ⟨init,e,split⟩
  have member : e ∈ b.entries := by simp [split]
  have last : b.entries.getLast? = some e := by simp [split]
  have dropped : b.entries.dropLast = init := by simp [split]
  have shorter : init.length < b.capacity := by
    rw [split,List.length_append,List.length_singleton] at bound
    omega
  have fewer : ∀ id ∈ ids {b with entries := init}, id ∈ b.ids := by
    intro id there
    rw [ids,split,List.map_append]
    exact List.mem_append_left _ there
  rw [last]
  dsimp only
  rw [dropped]
  cases dirty : e.dirty with
  | true =>
    rw [if_pos rfl]
    rcases write : io.writeDisk d e.page with ⟨cause | _,d'⟩
    · obtain ⟨coherent',same⟩ := coherent.failed lawful member dirty write
      refine ⟨coherent',same,fun _ member => member,fun done => (nomatch done),?_⟩
      intro error failed
      exact ⟨e.page,cause,by rw [write],(Except.error.inj failed).symm⟩
    · obtain ⟨coherent',same,onDisk⟩ := coherent.written lawful member write
      obtain ⟨kept,same'⟩ := coherent'.evict split onDisk
      exact ⟨kept,same'.trans same,fewer,fun _ => shorter,fun _ failed => nomatch failed⟩
  | false =>
    rw [if_neg Bool.false_ne_true]
    obtain ⟨kept,same⟩ := coherent.evict split (coherent.clean e member dirty)
    exact ⟨kept,same,fewer,fun _ => shorter,fun _ failed => nomatch failed⟩

theorem logical_of_absent (absent : id ∉ b.ids) : b.logical content d id = content d id := by
  rw [logical,item_none.mpr absent]

theorem MadeRoom.pushed {result : Except Error Unit × BufferPool × δ} (made : MadeRoom io content places b d result)
    (done : result.1 = .ok ()) (onDisk : e.dirty = false → content result.2.2 e.page.id = some e.page.data) :
    (result.2.1.front e).Coherent content places result.2.2 ∧
      (result.2.1.front e).logical content result.2.2 =
        Function.update (b.logical content d) e.page.id (some e.page.data) := by
  refine ⟨made.coherent.front ((length_front _ _).trans (made.room done)) onDisk,?_⟩
  rw [logical_front,made.logical]

theorem lookup_coherent (coherent : b.Coherent content places d) (id : Nat) :
    let result := b.lookup id
    result.2.Coherent content places d ∧ result.2.logical content d = b.logical content d ∧
      (∀ page, result.1 = some page → page.id = id ∧ b.logical content d id = some page.data) ∧
      (result.1 = none → b.item id = none ∧ result.2 = {b with misses := b.misses + 1}) := by
  unfold lookup
  cases found : b.item id with
  | some e =>
    obtain ⟨coherent',same⟩ := coherent.front_item found
    obtain ⟨member,rfl⟩ := (item_some coherent.distinct).mp found
    refine ⟨⟨coherent'.distinct,coherent'.capacity,coherent'.bound,coherent'.room,coherent'.clean⟩,same,?_,
      fun missed => nomatch missed⟩
    intro page hit
    rw [← Option.some.inj hit]
    exact ⟨rfl,logical_of_mem coherent.distinct member d⟩
  | none =>
    exact ⟨⟨coherent.distinct,coherent.capacity,coherent.bound,coherent.room,coherent.clean⟩,rfl,
      fun _ hit => (nomatch hit),fun _ => ⟨rfl,rfl⟩⟩

theorem keep_coherent (lawful : io.Lawful content) (coherent : b.Coherent content places d) (page : Page)
    (fresh : b.item page.id = none → content d page.id = some page.data) :
    let result := b.keep io d page
    result.2.1.Coherent content places result.2.2 ∧ result.2.1.logical content result.2.2 = b.logical content d ∧
      (∀ kept, result.1 = .ok kept → kept.id = page.id ∧ b.logical content d page.id = some kept.data) ∧
      ∀ e, result.1 = .error e → EvictionFailed io d e := by
  unfold keep
  cases found : b.item page.id with
  | some e =>
    obtain ⟨coherent',same⟩ := coherent.front_item found
    obtain ⟨member,here⟩ := (item_some coherent.distinct).mp found
    refine ⟨coherent',same,?_,fun _ failed => nomatch failed⟩
    intro kept answer
    rw [← Except.ok.inj answer,← here]
    exact ⟨rfl,logical_of_mem coherent.distinct member d⟩
  | none =>
    dsimp only
    have absent := item_none.mp found
    have shown : b.logical content d page.id = some page.data := (logical_of_absent absent).trans (fresh found)
    have made := makeRoom_made lawful coherent
    generalize makeRoomLocked io b d = result at made ⊢
    rcases result with ⟨e | _,b',d'⟩
    · refine ⟨made.coherent,made.logical,fun _ answer => (nomatch answer),fun error failed => ?_⟩
      exact made.failed error (congrArg _ (Except.error.inj failed))
    · have still : content d' page.id = some page.data := by
        have uncached : b'.logical content d' page.id = content d' page.id :=
          logical_of_absent fun there => absent (made.ids page.id there)
        exact uncached.symm.trans ((congrFun made.logical page.id).trans shown)
      obtain ⟨coherent',same⟩ := made.pushed rfl (e := ⟨page,false⟩) fun _ => still
      refine ⟨coherent',?_,?_,fun _ failed => nomatch failed⟩
      · rw [same,← shown,Function.update_eq_self]
      · intro kept answer
        rw [← Except.ok.inj answer]
        exact ⟨rfl,shown⟩

theorem get_coherent (lawful : io.Lawful content) (coherent : b.Coherent content places d) (id : Nat) :
    let result := b.get io d id
    result.2.1.Coherent content places result.2.2 ∧ result.2.1.logical content result.2.2 = b.logical content d ∧
      (∀ page, result.1 = .ok page → page.id = id ∧ b.logical content d id = some page.data) ∧
      ∀ e, result.1 = .error e → io.readDisk d id = .error e ∨ EvictionFailed io d e := by
  obtain ⟨coherent',same,hit,missed⟩ := lookup_coherent coherent id
  unfold get
  generalize b.lookup id = looked at coherent' same hit missed
  obtain ⟨found | page,b'⟩ := looked
  · obtain ⟨absent,rfl⟩ := missed rfl
    dsimp only
    cases read : io.readDisk d id with
    | error e =>
      refine ⟨coherent',rfl,fun _ answer => (nomatch answer),fun error failed => .inl ?_⟩
      rw [← Except.error.inj failed]
    | ok block =>
      obtain ⟨kept,still,answer,failed⟩ := keep_coherent lawful coherent' ⟨id,block⟩
        fun _ => lawful.read read
      exact ⟨kept,still,answer,fun error err => .inr (failed error err)⟩
  · refine ⟨coherent',same,?_,fun _ failed => nomatch failed⟩
    intro given answer
    exact hit given (congrArg some (Except.ok.inj answer))

theorem put_coherent (lawful : io.Lawful content) (coherent : b.Coherent content places d) (page : Page) :
    let result := b.put io d page true
    result.2.1.Coherent content places result.2.2 ∧
      (result.1 = .ok () → result.2.1.logical content result.2.2 =
        Function.update (b.logical content d) page.id (some page.data)) ∧
      ∀ e, result.1 = .error e →
        result.2.1.logical content result.2.2 = b.logical content d ∧ EvictionFailed io d e := by
  unfold put
  cases found : b.item page.id with
  | some e =>
    obtain ⟨member,same⟩ := (item_some coherent.distinct).mp found
    refine ⟨coherent.front (e := ⟨page,e.dirty || true⟩) ?_ ?_,fun _ => logical_front b _ d,
      fun _ failed => nomatch failed⟩
    · exact (length_front_of_mem member same).trans coherent.bound
    · rw [Bool.or_true]
      exact fun clean => nomatch clean
  | none =>
    dsimp only
    have made := makeRoom_made lawful coherent
    generalize makeRoomLocked io b d = result at made ⊢
    rcases result with ⟨e | _,b',d'⟩
    · exact ⟨made.coherent,fun done => (nomatch done),fun error failed => ⟨made.logical,made.failed error failed⟩⟩
    · obtain ⟨coherent',now⟩ := made.pushed rfl (e := ⟨page,true⟩) fun clean => nomatch clean
      exact ⟨coherent',fun _ => now,fun _ failed => nomatch failed⟩

structure Flushed (io : Disk δ) (content : δ → Nat → Option Block) (places : Nat) (b : BufferPool) (d : δ)
    (order : List Nat) (result : Except Error Unit × BufferPool × δ) : Prop where
  coherent : result.2.1.Coherent content places result.2.2
  logical : result.2.1.logical content result.2.2 = b.logical content d
  ids : result.2.1.ids = b.ids
  dirty : ∀ e ∈ result.2.1.entries, e.dirty = true → e ∈ b.entries
  done : result.1 = .ok () → ∀ e ∈ result.2.1.entries, e.dirty = true → e.page.id ∉ order
  failed : ∀ e, result.1 = .error e → ∃ d' page, (io.writeDisk d' page).1 = .error e

theorem flush_flushed (lawful : io.Lawful content) (order : List Nat) (coherent : b.Coherent content places d) :
    Flushed io content places b d order (flush io order b d) := by
  induction order generalizing b d with
  | nil =>
    exact ⟨coherent,rfl,rfl,fun _ member _ => member,fun _ _ _ _ => List.not_mem_nil,fun _ failed => nomatch failed⟩
  | cons id order ih =>
    unfold flush
    cases found : b.item id with
    | none =>
      have rest := ih coherent
      refine ⟨rest.coherent,rest.logical,rest.ids,rest.dirty,fun done e member dirty => ?_,rest.failed⟩
      refine List.not_mem_cons_of_ne_of_not_mem (fun same => ?_) (rest.done done e member dirty)
      apply item_none.mp found
      rw [← rest.ids,← same]
      exact List.mem_map_of_mem member
    | some e =>
      obtain ⟨member,rfl⟩ := (item_some coherent.distinct).mp found
      dsimp only
      cases dirty : e.dirty with
      | false =>
        rw [if_neg Bool.false_ne_true]
        have rest := ih coherent
        refine ⟨rest.coherent,rest.logical,rest.ids,rest.dirty,fun done other there unclean => ?_,rest.failed⟩
        refine List.not_mem_cons_of_ne_of_not_mem (fun same => ?_) (rest.done done other there unclean)
        -- A page that is dirty at the end was so before, and this one was clean.
        have equal := List.inj_on_of_nodup_map coherent.distinct (rest.dirty other there unclean) member same
        rw [equal,dirty] at unclean
        cases unclean
      | true =>
        rw [if_pos rfl]
        rcases write : io.writeDisk d e.page with ⟨cause | _,d'⟩
        · obtain ⟨coherent',same⟩ := coherent.failed lawful member dirty write
          refine ⟨coherent',same,rfl,fun _ member _ => member,fun done => (nomatch done),fun error failed => ?_⟩
          exact ⟨d,e.page,by rw [write,← Except.error.inj failed]⟩
        · obtain ⟨coherent',same,onDisk⟩ := coherent.written lawful member write
          obtain ⟨cleaned,same'⟩ := coherent'.cleaned member onDisk
          have rest := ih cleaned
          have old : ∀ other ∈ (b.clean e.page.id).entries, other.dirty = true →
              other ∈ b.entries ∧ other.page.id ≠ e.page.id := by
            intro other there unclean
            obtain ⟨before,cached,rfl⟩ := List.mem_map.mp there
            by_cases here : before.page.id = e.page.id
            · rw [if_pos here] at unclean
              cases unclean
            · rw [if_neg here]
              exact ⟨cached,here⟩
          refine ⟨rest.coherent,rest.logical.trans (same'.trans same),rest.ids.trans (ids_clean b _),?_,?_,rest.failed⟩
          · exact fun other there unclean => (old other (rest.dirty other there unclean) unclean).1
          · intro done other there unclean
            exact List.not_mem_cons_of_ne_of_not_mem (old other (rest.dirty other there unclean) unclean).2
              (rest.done done other there unclean)

theorem Flushed.all {order : List Nat} {result : Except Error Unit × BufferPool × δ}
    (flushed : Flushed io content places b d order result) (every : ∀ id ∈ b.ids, id ∈ order) (done : result.1 = .ok ()) :
    content result.2.2 = result.2.1.logical content result.2.2 := by
  ext1 id
  unfold BufferPool.logical
  cases found : result.2.1.item id with
  | none => rfl
  | some e =>
    obtain ⟨member,rfl⟩ := (item_some flushed.coherent.distinct).mp found
    cases dirty : e.dirty with
    | false => exact flushed.coherent.clean e member dirty
    | true =>
      have here : e.page.id ∈ b.ids := flushed.ids ▸ List.mem_map_of_mem member
      exact absurd (every _ here) (flushed.done done e member dirty)

theorem new_coherent (content : δ → Nat → Option Block) (capacity : Int) (d : δ) :
    (newBufferPool capacity).Coherent content (newBufferPool capacity).capacity d := by
  refine ⟨List.nodup_nil,rfl,Nat.zero_le _,?_,fun _ member => nomatch member⟩
  change 1 ≤ if capacity < 1 then 1 else capacity.toNat
  split <;> omega

end BufferPool
end GoDb
