import GoDb.PoolCoherence
import GoDb.Foundation.Iteration
import GoDb.Foundation.Runs
import GoDb.Foundation.SortedMap

/-! The buffer pool with its map and its list apart, as `storage/buffer_pool.go` has them.
Both refer to list elements; `cells` holds the entry that each element was made with. An
element that is not there would be a nil pointer. -/
namespace GoDb
open Foundation

structure LinkedPool where
  capacity : Nat
  items : SortedMap Nat Nat
  lru : List Nat
  cells : List PoolEntry
  hits : Nat
  misses : Nat

def newLinkedPool (capacity : Int) : LinkedPool := ⟨if capacity < 1 then 1 else capacity.toNat,∅,[],[],0,0⟩

variable {pe : PoolEntry} {e : Nat}

namespace LinkedPool

def moveToFront (b : LinkedPool) (e : Nat) : LinkedPool := {b with lru := e::b.lru.erase e}

/-- `b.items[id] = b.lru.PushFront(pe)`. -/
def pushFront (b : LinkedPool) (id : Nat) (pe : PoolEntry) : LinkedPool :=
  {b with items := b.items.insert id b.cells.length,lru := b.cells.length::b.lru,cells := b.cells ++ [pe]}

variable {δ : Type} (io : Disk δ)

def makeRoomLocked (b : LinkedPool) (d : δ) : Except Error Unit × LinkedPool × δ :=
  if b.lru.length < b.capacity then (.ok (),b,d)
  else
    match b.lru.getLast? with
    | none => (.error .panics,b,d)
    | some e =>
      match b.cells[e]? with
      | none => (.error .panics,b,d)
      | some pe =>
        let removed := {b with items := b.items.erase pe.page.id,lru := b.lru.erase e}
        if pe.dirty then
          match io.writeDisk d pe.page with
          | (.error cause,d) => (.error (.evicting pe.page.id cause),b,d)
          | (.ok (),d) => (.ok (),removed,d)
        else (.ok (),removed,d)

def get (b : LinkedPool) (d : δ) (id : Nat) : Except Error Page × LinkedPool × δ :=
  match b.items.lookup id with
  | some e =>
    match b.cells[e]? with
    | none => (.error .panics,b,d)
    | some pe => (.ok pe.page,{b with hits := b.hits + 1}.moveToFront e,d)
  | none =>
    let b := {b with misses := b.misses + 1}
    match io.readDisk d id with
    | .error e => (.error e,b,d)
    | .ok block =>
      match b.items.lookup id with
      | some e =>
        match b.cells[e]? with
        | none => (.error .panics,b,d)
        | some pe => (.ok pe.page,b.moveToFront e,d)
      | none =>
        match b.makeRoomLocked io d with
        | (.error e,b,d) => (.error e,b,d)
        | (.ok (),b,d) => (.ok ⟨id,block⟩,b.pushFront id ⟨⟨id,block⟩,false⟩,d)

def put (b : LinkedPool) (d : δ) (page : Page) (dirty : Bool) : Except Error Unit × LinkedPool × δ :=
  match b.items.lookup page.id with
  | some e =>
    match b.cells[e]? with
    | none => (.error .panics,b,d)
    | some pe => (.ok (),{b with cells := b.cells.set e ⟨page,pe.dirty || dirty⟩}.moveToFront e,d)
  | none =>
    match b.makeRoomLocked io d with
    | (.error e,b,d) => (.error e,b,d)
    | (.ok (),b,d) => (.ok (),b.pushFront page.id ⟨page,dirty⟩,d)

def flushFrom : List Nat → LinkedPool → δ → Except Error Unit × LinkedPool × δ
  | [],b,d => (.ok (),b,d)
  | e::elements,b,d =>
    match b.cells[e]? with
    | none => (.error .panics,b,d)
    | some pe =>
      if pe.dirty then
        match io.writeDisk d pe.page with
        | (.error e,d) => (.error e,b,d)
        | (.ok (),d) => flushFrom elements {b with cells := b.cells.set e {pe with dirty := false}} d
      else flushFrom elements b d

def flush (ord : Order) (b : LinkedPool) (d : δ) : Except Error Unit × LinkedPool × δ :=
  flushFrom io ((ord.arrange b.items.entries).map Prod.snd) b d

structure Linked (b : LinkedPool) : Prop where
  once : b.lru.Nodup
  held : ∀ e ∈ b.lru, ∃ pe, b.cells[e]? = some pe ∧ b.items.lookup pe.page.id = some e
  listed : ∀ {id e}, b.items.lookup id = some e → e ∈ b.lru ∧ ∃ pe, b.cells[e]? = some pe ∧ pe.page.id = id

def pool (b : LinkedPool) : BufferPool := ⟨b.capacity,b.lru.filterMap (b.cells[·]?),b.hits,b.misses⟩

section linked

variable {b : LinkedPool}

theorem Linked.mem_pool (linked : b.Linked) :
    pe ∈ b.pool.entries ↔ ∃ e, b.items.lookup pe.page.id = some e ∧ b.cells[e]? = some pe := by
  constructor
  · intro member
    obtain ⟨e,there,cell⟩ := List.mem_filterMap.mp member
    obtain ⟨pe',cell',found⟩ := linked.held e there
    obtain rfl := Option.some.inj (cell.symm.trans cell')
    exact ⟨e,found,cell⟩
  · rintro ⟨e,found,cell⟩
    exact List.mem_filterMap.mpr ⟨e,(linked.listed found).1,cell⟩

theorem Linked.distinct (linked : b.Linked) : b.pool.ids.Nodup := by
  refine List.pairwise_map.mpr (List.pairwise_filterMap.mpr ?_)
  refine linked.once.imp_of_mem fun {e e'} there there' different pe cell pe' cell' same => different ?_
  obtain ⟨_,held,found⟩ := linked.held e there
  obtain ⟨_,held',found'⟩ := linked.held e' there'
  obtain rfl := Option.some.inj (cell.symm.trans held)
  obtain rfl := Option.some.inj (cell'.symm.trans held')
  rw [same,found'] at found
  exact (Option.some.inj found).symm

theorem Linked.item (linked : b.Linked) (id : Nat) : b.pool.item id = (b.items.lookup id).bind (b.cells[·]?) := by
  cases found : b.items.lookup id with
  | none =>
    apply BufferPool.item_none.mpr
    intro there
    obtain ⟨pe,member,rfl⟩ := List.mem_map.mp there
    obtain ⟨e,listed,-⟩ := linked.mem_pool.mp member
    cases listed.symm.trans found
  | some e =>
    obtain ⟨-,pe,cell,rfl⟩ := linked.listed found
    rw [Option.bind_some,cell]
    exact (BufferPool.item_some linked.distinct).mpr ⟨linked.mem_pool.mpr ⟨e,found,cell⟩,rfl⟩

theorem Linked.length (linked : b.Linked) : b.pool.entries.length = b.lru.length := by
  apply List.filterMap_length_eq_length.mpr
  intro e there
  obtain ⟨pe,cell,-⟩ := linked.held e there
  rw [cell]
  rfl

theorem Linked.absent (linked : b.Linked) {id : Nat} (missing : b.items.lookup id = none) : id ∉ b.pool.ids := by
  apply BufferPool.item_none.mp
  rw [linked.item,missing]
  rfl

theorem Linked.moveToFront (linked : b.Linked) (found : b.items.lookup pe.page.id = some e)
    (cell : b.cells[e]? = some pe) : (b.moveToFront e).Linked ∧ (b.moveToFront e).pool = b.pool.front pe := by
  have moved := List.perm_cons_erase (linked.listed found).1
  refine ⟨⟨moved.nodup_iff.mp linked.once,fun a member => linked.held a (moved.mem_iff.mpr member),fun listed => ?_⟩,?_⟩
  · obtain ⟨there,rest⟩ := linked.listed listed
    exact ⟨moved.mem_iff.mp there,rest⟩
  · have others : b.lru.erase e = b.lru.filter (· ≠ e) := by
      rw [linked.once.erase_eq_filter]
      apply List.filter_congr
      intro a _
      by_cases own : a = e <;> simp [own]
    have entries : (e::b.lru.erase e).filterMap (b.cells[·]?) =
        pe::(b.lru.filterMap (b.cells[·]?)).filter (·.page.id ≠ pe.page.id) := by
      rw [List.filterMap_cons_some cell,others,List.filterMap_filter,List.filter_filterMap]
      congr 1
      apply List.filterMap_congr
      intro a member
      obtain ⟨old,held,listed⟩ := linked.held a member
      rw [held]
      by_cases own : a = e
      · rw [own,cell] at held
        obtain rfl := Option.some.inj held
        simp [own,Option.filter]
      · have different : old.page.id ≠ pe.page.id := by
          intro equal
          rw [equal,found] at listed
          exact own (Option.some.inj listed).symm
        simp [own,different,Option.filter]
    unfold pool LinkedPool.moveToFront BufferPool.front
    dsimp only
    rw [entries]

theorem Linked.set (linked : b.Linked) (pe' : PoolEntry) (found : b.items.lookup pe.page.id = some e)
    (cell : b.cells[e]? = some pe) (same : pe'.page.id = pe.page.id) :
    Linked {b with cells := b.cells.set e pe'} ∧
      pool {b with cells := b.cells.set e pe'} =
        {b.pool with entries := b.pool.entries.map fun other => if other.page.id = pe.page.id then pe' else other} := by
  have inside := (List.getElem?_eq_some_iff.mp cell).1
  have cells (a : Nat) : (b.cells.set e pe')[a]? = if a = e then some pe' else b.cells[a]? := by
    rw [List.getElem?_set]
    by_cases own : e = a
    · simp [own.symm,inside]
    · rw [if_neg own,if_neg (Ne.symm own)]
  refine ⟨⟨linked.once,fun a member => ?_,fun {id a} listed => ?_⟩,?_⟩
  · obtain ⟨old,held,listed⟩ := linked.held a member
    rw [cells]
    by_cases own : a = e
    · rw [if_pos own,own]
      exact ⟨pe',rfl,same ▸ found⟩
    · rw [if_neg own]
      exact ⟨old,held,listed⟩
  · obtain ⟨member,old,held,number⟩ := linked.listed listed
    refine ⟨member,?_⟩
    rw [cells]
    by_cases own : a = e
    · rw [own,cell] at held
      obtain rfl := Option.some.inj held
      rw [if_pos own]
      exact ⟨pe',rfl,same.trans number⟩
    · rw [if_neg own]
      exact ⟨old,held,number⟩
  · unfold pool
    dsimp only
    rw [List.map_filterMap]
    congr 1
    apply List.filterMap_congr
    intro a member
    obtain ⟨old,held,listed⟩ := linked.held a member
    rw [cells,held]
    by_cases own : a = e
    · rw [own,cell] at held
      obtain rfl := Option.some.inj held
      simp [own]
    · have different : old.page.id ≠ pe.page.id := by
        intro equal
        rw [equal,found] at listed
        exact own (Option.some.inj listed).symm
      simp [own,different]

theorem Linked.touch (linked : b.Linked) (pe' : PoolEntry) (found : b.items.lookup pe.page.id = some e)
    (cell : b.cells[e]? = some pe) (same : pe'.page.id = pe.page.id) :
    Linked ({b with cells := b.cells.set e pe'}.moveToFront e) ∧
      ({b with cells := b.cells.set e pe'}.moveToFront e).pool = b.pool.front pe' := by
  obtain ⟨linked',entries⟩ := linked.set pe' found cell same
  have inside := (List.getElem?_eq_some_iff.mp cell).1
  have here : (b.cells.set e pe')[e]? = some pe' := List.getElem?_set_self inside
  obtain ⟨linked'',moved⟩ := linked'.moveToFront (same.symm ▸ found) here
  refine ⟨linked'',?_⟩
  rw [moved,entries]
  unfold BufferPool.front
  dsimp only
  congr 2
  -- The old entry of the page is filtered out with or without its new page.
  induction b.pool.entries with
  | nil => rfl
  | cons other entries ih =>
    rw [List.map_cons,List.filter_cons,List.filter_cons,ih]
    by_cases own : other.page.id = pe.page.id
    · simp [own,same]
    · simp [own,same]

theorem Linked.pushFront (linked : b.Linked) (missing : b.items.lookup pe.page.id = none) :
    (b.pushFront pe.page.id pe).Linked ∧ (b.pushFront pe.page.id pe).pool = b.pool.front pe := by
  have known {a : Nat} (there : a ∈ b.lru) : a < b.cells.length := by
    obtain ⟨_,cell,-⟩ := linked.held a there
    exact (List.getElem?_eq_some_iff.mp cell).1
  have fresh : b.cells.length ∉ b.lru := fun there => Nat.lt_irrefl _ (known there)
  have old {a : Nat} (there : a ∈ b.lru) : (b.cells ++ [pe])[a]? = b.cells[a]? :=
    List.getElem?_append_left (known there)
  have new : (b.cells ++ [pe])[b.cells.length]? = some pe := List.getElem?_concat_length
  refine ⟨⟨List.nodup_cons.mpr ⟨fresh,linked.once⟩,fun a member => ?_,fun {id a} listed => ?_⟩,?_⟩
  · change ∃ pe', (b.cells ++ [pe])[a]? = some pe' ∧ (b.items.insert pe.page.id b.cells.length).lookup _ = some a
    rcases List.mem_cons.mp member with rfl | there
    · exact ⟨pe,new,by rw [SortedMap.lookup_insert,if_pos rfl]⟩
    · obtain ⟨pe',cell,found⟩ := linked.held a there
      refine ⟨pe',(old there).trans cell,?_⟩
      rw [SortedMap.lookup_insert,if_neg,found]
      intro same
      rw [same,missing] at found
      cases found
  · change (b.items.insert pe.page.id b.cells.length).lookup id = some a at listed
    change a ∈ b.cells.length::b.lru ∧ ∃ pe', (b.cells ++ [pe])[a]? = some pe' ∧ _
    rw [SortedMap.lookup_insert] at listed
    by_cases same : id = pe.page.id
    · rw [if_pos same] at listed
      obtain rfl := Option.some.inj listed
      exact ⟨List.mem_cons_self,pe,new,same.symm⟩
    · rw [if_neg same] at listed
      obtain ⟨there,pe',cell,number⟩ := linked.listed listed
      exact ⟨List.mem_cons_of_mem _ there,pe',(old there).trans cell,number⟩
  · have kept : b.pool.entries.filter (·.page.id ≠ pe.page.id) = b.pool.entries := by
      apply List.filter_eq_self.mpr
      intro other member
      simp only [ne_eq,decide_eq_true_eq]
      exact fun same => linked.absent missing (same ▸ List.mem_map_of_mem member)
    have entries : (b.cells.length::b.lru).filterMap ((b.cells ++ [pe])[·]?) = pe::b.pool.entries := by
      rw [List.filterMap_cons_some new]
      congr 1
      exact List.filterMap_congr fun a there => old there
    unfold BufferPool.front
    rw [kept,← entries]
    rfl

theorem Linked.remove (linked : b.Linked) {init : List Nat} (split : b.lru = init ++ [e])
    (cell : b.cells[e]? = some pe) :
    Linked {b with items := b.items.erase pe.page.id,lru := b.lru.erase e} ∧
      pool {b with items := b.items.erase pe.page.id,lru := b.lru.erase e} =
        {b.pool with entries := b.pool.entries.dropLast} := by
  have once := linked.once
  rw [split] at once
  obtain ⟨shorter,-,apart⟩ := List.nodup_append.mp once
  have gone : e ∉ init := fun there => apart e there e (List.mem_singleton_self e) rfl
  have left : b.lru.erase e = init := by
    rw [split,List.erase_append_right _ gone,List.erase_cons_head,List.append_nil]
  obtain ⟨_,held,own⟩ := linked.held e (by simp [split])
  obtain rfl := Option.some.inj (cell.symm.trans held)
  rw [left]
  refine ⟨⟨shorter,fun a there => ?_,fun {id a} listed => ?_⟩,?_⟩
  · obtain ⟨pe',cell',found⟩ := linked.held a (split ▸ List.mem_append_left _ there)
    refine ⟨pe',cell',?_⟩
    change (b.items.erase pe.page.id).lookup _ = some a
    rw [SortedMap.lookup_erase,if_neg,found]
    intro same
    rw [same,own] at found
    exact gone (Option.some.inj found ▸ there)
  · change (b.items.erase pe.page.id).lookup id = some a at listed
    rw [SortedMap.lookup_erase] at listed
    split_ifs at listed with same
    obtain ⟨there,pe',cell',number⟩ := linked.listed listed
    rw [split] at there
    refine ⟨(List.mem_append.mp there).resolve_right fun last => same ?_,pe',cell',number⟩
    rw [List.mem_singleton.mp last,cell] at cell'
    rw [← number,Option.some.inj cell']
  · have entries : b.pool.entries = init.filterMap (b.cells[·]?) ++ [pe] := by
      change b.lru.filterMap (b.cells[·]?) = _
      rw [split,List.filterMap_append,List.filterMap_cons_some cell]
      rfl
    rw [entries,List.dropLast_concat]
    rfl

theorem Linked.cleaned (linked : b.Linked) (found : b.items.lookup pe.page.id = some e) (cell : b.cells[e]? = some pe) :
    Linked {b with cells := b.cells.set e {pe with dirty := false}} ∧
      pool {b with cells := b.cells.set e {pe with dirty := false}} = b.pool.clean pe.page.id := by
  obtain ⟨linked',entries⟩ := linked.set {pe with dirty := false} found cell rfl
  refine ⟨linked',entries.trans ?_⟩
  unfold BufferPool.clean
  dsimp only
  congr 1
  apply List.map_congr_left
  intro other member
  by_cases own : other.page.id = pe.page.id
  · have here : pe ∈ b.pool.entries := linked.mem_pool.mpr ⟨e,found,cell⟩
    rw [if_pos own,if_pos own,List.inj_on_of_nodup_map linked.distinct member here own]
  · rw [if_neg own,if_neg own]

end linked

/-- The map and the list are still in step, and the call has answered and done what it does on one list. -/
def Refines {α δ : Type} (result : Except Error α × LinkedPool × δ) (simple : Except Error α × BufferPool × δ) : Prop :=
  result.2.1.Linked ∧ (result.1,result.2.1.pool,result.2.2) = simple

section refines

variable {δ : Type} {io : Disk δ} {b : LinkedPool} {d : δ}

theorem makeRoom_refines (linked : b.Linked) (room : 1 ≤ b.capacity) :
    Refines (b.makeRoomLocked io d) (b.pool.makeRoomLocked io d) := by
  unfold makeRoomLocked BufferPool.makeRoomLocked
  rw [linked.length]
  change Refines (if b.lru.length < b.capacity then _ else _) (if b.lru.length < b.capacity then _ else _)
  by_cases space : b.lru.length < b.capacity
  · rw [if_pos space,if_pos space]
    exact ⟨linked,rfl⟩
  rw [if_neg space,if_neg space]
  obtain ⟨init,e,split⟩ : ∃ init e, b.lru = init ++ [e] := by
    rcases List.eq_nil_or_concat' b.lru with empty | ⟨init,e,split⟩
    · rw [empty,List.length_nil] at space
      omega
    · exact ⟨init,e,split⟩
  obtain ⟨pe,cell,-⟩ := linked.held e (by simp [split])
  obtain ⟨linked',removed⟩ := linked.remove split cell
  have last : b.lru.getLast? = some e := by simp [split]
  have last' : b.pool.entries.getLast? = some pe := by
    change (b.lru.filterMap (b.cells[·]?)).getLast? = some pe
    rw [split,List.filterMap_append,List.filterMap_cons_some cell]
    simp
  simp only [last,cell,last']
  cases pe.dirty with
  | false => exact ⟨linked',congrArg (fun pool => (Except.ok (),pool,d)) removed⟩
  | true =>
    rw [if_pos rfl,if_pos rfl]
    rcases io.writeDisk d pe.page with ⟨cause | _,d'⟩
    · exact ⟨linked,rfl⟩
    · exact ⟨linked',congrArg (fun pool => (Except.ok (),pool,d')) removed⟩

theorem makeRoom_missing {id : Nat} (missing : b.items.lookup id = none) :
    (b.makeRoomLocked io d).2.1.items.lookup id = none := by
  have erased (other : Nat) : (b.items.erase other).lookup id = none := by
    rw [SortedMap.lookup_erase,missing,ite_self]
  unfold makeRoomLocked
  split_ifs
  · exact missing
  · cases b.lru.getLast? with
    | none => exact missing
    | some e =>
      dsimp only
      cases b.cells[e]? with
      | none => exact missing
      | some pe =>
        dsimp only
        split_ifs
        · rcases io.writeDisk d pe.page with ⟨_ | _,d'⟩
          · exact missing
          · exact erased _
        · exact erased _

private theorem pushed_refines {α : Type} (answer : α) (linked : b.Linked) (room : 1 ≤ b.capacity) (pe : PoolEntry)
    (missing : b.items.lookup pe.page.id = none) :
    Refines
      (match b.makeRoomLocked io d with
        | (.error e,b,d) => (.error e,b,d)
        | (.ok (),b,d) => (.ok answer,b.pushFront pe.page.id pe,d))
      (match b.pool.makeRoomLocked io d with
        | (.error e,b,d) => (.error e,b,d)
        | (.ok (),b,d) => (.ok answer,b.front pe,d)) := by
  obtain ⟨linked',same⟩ : Refines (b.makeRoomLocked io d) _ := makeRoom_refines linked room
  have missing' : (b.makeRoomLocked io d).2.1.items.lookup pe.page.id = none := makeRoom_missing missing
  rw [← same]
  generalize b.makeRoomLocked io d = result at linked' missing' ⊢
  rcases result with ⟨_ | _,b',d'⟩
  · exact ⟨linked',rfl⟩
  · obtain ⟨linked'',pushed⟩ := linked'.pushFront missing'
    exact ⟨linked'',congrArg (fun pool => (Except.ok answer,pool,d')) pushed⟩

theorem get_refines (linked : b.Linked) (room : 1 ≤ b.capacity) (id : Nat) :
    Refines (b.get io d id) (b.pool.get io d id) := by
  unfold get BufferPool.get BufferPool.lookup
  rw [linked.item]
  cases found : b.items.lookup id with
  | some e =>
    obtain ⟨-,pe,cell,rfl⟩ := linked.listed found
    obtain ⟨linked',moved⟩ := linked.moveToFront found cell
    simp only [cell,Option.bind_some]
    refine ⟨⟨linked'.once,linked'.held,linked'.listed⟩,?_⟩
    exact congrArg (fun pool : BufferPool => (Except.ok pe.page,{pool with hits := b.hits + 1},d)) moved
  | none =>
    dsimp only [Option.bind_none]
    have missed : Linked {b with misses := b.misses + 1} := ⟨linked.once,linked.held,linked.listed⟩
    cases io.readDisk d id with
    | error e => exact ⟨missed,rfl⟩
    | ok block =>
      have absent : BufferPool.item {b.pool with misses := b.pool.misses + 1} id = none := by
        refine Eq.trans (linked.item id) ?_
        rw [found]
        rfl
      unfold BufferPool.keep
      dsimp only
      rw [found,absent]
      exact pushed_refines (Page.mk id block) missed room ⟨⟨id,block⟩,false⟩ found

theorem put_refines (linked : b.Linked) (room : 1 ≤ b.capacity) (page : Page) (dirty : Bool) :
    Refines (b.put io d page dirty) (b.pool.put io d page dirty) := by
  unfold put BufferPool.put
  rw [linked.item]
  cases found : b.items.lookup page.id with
  | some e =>
    obtain ⟨-,pe,cell,same⟩ := linked.listed found
    rw [← same] at found
    obtain ⟨linked',touched⟩ := linked.touch ⟨page,pe.dirty || dirty⟩ found cell same.symm
    simp only [cell,Option.bind_some]
    exact ⟨linked',congrArg (fun pool => (Except.ok (),pool,d)) touched⟩
  | none => exact pushed_refines () linked room ⟨page,dirty⟩ found

theorem flushFrom_refines (order : List (Nat × Nat)) (linked : b.Linked)
    (listed : ∀ p ∈ order, b.items.lookup p.1 = some p.2) :
    Refines (flushFrom io (order.map Prod.snd) b d) (BufferPool.flush io (order.map Prod.fst) b.pool d) := by
  induction order generalizing b d with
  | nil => exact ⟨linked,rfl⟩
  | cons p order ih =>
    obtain ⟨found,others⟩ := List.forall_mem_cons.mp listed
    obtain ⟨-,pe,cell,same⟩ := linked.listed found
    rw [← same] at found
    obtain ⟨linked',cleaned⟩ := linked.cleaned found cell
    rw [List.map_cons,List.map_cons,flushFrom,BufferPool.flush,linked.item,← same,found]
    simp only [cell,Option.bind_some]
    cases pe.dirty with
    | false => exact ih linked others
    | true =>
      rw [if_pos rfl,if_pos rfl]
      rcases io.writeDisk d pe.page with ⟨e | _,d'⟩
      · exact ⟨linked,rfl⟩
      · dsimp only
        rw [← cleaned]
        exact ih linked' others

theorem flush_refines (linked : b.Linked) (ord : Order) :
    Refines (b.flush io ord d) (BufferPool.flush io ((ord.arrange b.items.entries).map Prod.fst) b.pool d) :=
  flushFrom_refines _ linked fun p member => (SortedMap.mem_entries p).mp (ord.mem_arrange.mp member)

theorem new_linked (capacity : Int) : (newLinkedPool capacity).Linked :=
  ⟨List.nodup_nil,fun _ member => (nomatch member),fun listed => nomatch listed⟩

end refines

theorem Linked.elements {b : LinkedPool} (linked : b.Linked) : (b.items.entries.map Prod.snd).Perm b.lru := by
  have once : (b.items.entries.map Prod.snd).Nodup := by
    apply List.pairwise_map.mpr
    refine b.items.increasing.imp_of_mem fun {p q} here there less same => less.ne ?_
    obtain ⟨-,pe,cell,number⟩ := linked.listed ((SortedMap.mem_entries p).mp here)
    obtain ⟨-,pe',cell',number'⟩ := linked.listed ((SortedMap.mem_entries q).mp there)
    rw [same,cell'] at cell
    rw [← number,← number',Option.some.inj cell]
  apply (List.perm_ext_iff_of_nodup once linked.once).mpr
  intro e
  constructor
  · intro member
    obtain ⟨p,here,rfl⟩ := List.mem_map.mp member
    exact (linked.listed ((SortedMap.mem_entries p).mp here)).1
  · intro member
    obtain ⟨pe,-,found⟩ := linked.held e member
    exact List.mem_map.mpr ⟨(pe.page.id,e),(SortedMap.mem_entries (pe.page.id,e)).mpr found,rfl⟩

section coherence

variable {δ : Type} {io : Disk δ} {content : δ → Nat → Option Block} {b : LinkedPool} {d : δ}

/-- The cached page if the number is in the map, and the page of the disk otherwise. -/
def logical (content : δ → Nat → Option Block) (b : LinkedPool) (d : δ) (id : Nat) : Option Block :=
  match (b.items.lookup id).bind (b.cells[·]?) with
  | some pe => some pe.page.data
  | none => content d id

theorem Linked.logical (linked : b.Linked) : b.logical content d = b.pool.logical content d := by
  ext1 id
  rw [BufferPool.logical,linked.item]
  rfl

inductive Call
  | get (id : Nat)
  | put (page : Page)
  | flush (ord : Order)

def Call.run (io : Disk δ) : Call → LinkedPool × δ → Except Error (Option Page) × LinkedPool × δ
  | .get id,(b,d) => let (r,b,d) := b.get io d id; (r.map some,b,d)
  | .put page,(b,d) => let (r,b,d) := b.put io d page true; (r.map fun _ => none,b,d)
  | .flush ord,(b,d) => let (r,b,d) := b.flush io ord d; (r.map fun _ => none,b,d)

structure InOrder (content : δ → Nat → Option Block) (places : Nat) (b : LinkedPool) (d : δ) : Prop where
  linked : b.Linked
  coherent : b.pool.Coherent content places d

variable {places : Nat}

theorem InOrder.get (ordered : b.InOrder content places d) (lawful : io.Lawful content) (id : Nat) :
    let result := b.get io d id
    result.2.1.InOrder content places result.2.2 ∧
      result.2.1.logical content result.2.2 = b.logical content d ∧
      (∀ page, result.1 = .ok page → page.id = id ∧ b.logical content d id = some page.data) ∧
      ∀ e, result.1 = .error e → io.readDisk d id = .error e ∨ BufferPool.EvictionFailed io d e := by
  obtain ⟨linked,same⟩ := get_refines ordered.linked ordered.coherent.room id
  obtain ⟨coherent,still,answered,failed⟩ := BufferPool.get_coherent lawful ordered.coherent id
  rw [← same] at coherent still answered failed
  intro result
  rw [linked.logical,ordered.linked.logical]
  exact ⟨⟨linked,coherent⟩,still,answered,failed⟩

theorem InOrder.put (ordered : b.InOrder content places d) (lawful : io.Lawful content) (page : Page) :
    let result := b.put io d page true
    result.2.1.InOrder content places result.2.2 ∧
      (result.1 = .ok () → result.2.1.logical content result.2.2 =
        Function.update (b.logical content d) page.id (some page.data)) ∧
      ∀ e, result.1 = .error e → result.2.1.logical content result.2.2 = b.logical content d ∧
        BufferPool.EvictionFailed io d e := by
  obtain ⟨linked,same⟩ := put_refines ordered.linked ordered.coherent.room page true
  obtain ⟨coherent,done,failed⟩ := BufferPool.put_coherent lawful ordered.coherent page
  rw [← same] at coherent done failed
  intro result
  rw [linked.logical,ordered.linked.logical]
  exact ⟨⟨linked,coherent⟩,done,failed⟩

theorem InOrder.flush (ordered : b.InOrder content places d) (lawful : io.Lawful content) (ord : Order) :
    let result := b.flush io ord d
    result.2.1.InOrder content places result.2.2 ∧
      result.2.1.logical content result.2.2 = b.logical content d ∧
      (result.1 = .ok () → content result.2.2 = result.2.1.logical content result.2.2) ∧
      ∀ e, result.1 = .error e → ∃ d' page, (io.writeDisk d' page).1 = .error e := by
  obtain ⟨linked,same⟩ := flush_refines ordered.linked ord
  have flushed := BufferPool.flush_flushed lawful ((ord.arrange b.items.entries).map Prod.fst) ordered.coherent
  have every : ∀ id ∈ b.pool.ids, id ∈ (ord.arrange b.items.entries).map Prod.fst := by
    intro id there
    obtain ⟨pe,member,rfl⟩ := List.mem_map.mp there
    obtain ⟨e,found,-⟩ := ordered.linked.mem_pool.mp member
    exact List.mem_map.mpr ⟨(pe.page.id,e),ord.mem_arrange.mpr ((SortedMap.mem_entries (pe.page.id,e)).mpr found),rfl⟩
  rw [← same] at flushed
  intro result
  rw [linked.logical,ordered.linked.logical]
  exact ⟨⟨linked,flushed.coherent⟩,flushed.logical,flushed.all every,flushed.failed⟩

theorem Call.run_inOrder (lawful : io.Lawful content) (call : Call) (s : LinkedPool × δ)
    (ordered : s.1.InOrder content places s.2) :
    (call.run io s).2.1.InOrder content places (call.run io s).2.2 := by
  cases call with
  | get id => exact (ordered.get lawful id).1
  | put page => exact (ordered.put lawful page).1
  | flush ord => exact (ordered.flush lawful ord).1

/-- After any calls, on a disk whose writes may fail at any time: the map and the list hold the same elements, no more
than there are places, and each call does to the pages what it is for, unless the disk fails. -/
theorem pool_coherent (lawful : io.Lawful content) (capacity : Int) (start : δ) (calls : List Call) :
    let s := Runs.after (Call.run io) calls (newLinkedPool capacity,start)
    let pages := s.1.logical content s.2
    (s.1.Linked ∧ (s.1.items.entries.map Prod.snd).Perm s.1.lru ∧ (s.1.lru.length : Int) ≤ max 1 capacity) ∧
      (∀ id, let result := s.1.get io s.2 id
        result.2.1.logical content result.2.2 = pages ∧
          (∀ page, result.1 = .ok page → page.id = id ∧ pages id = some page.data) ∧
          ∀ e, result.1 = .error e → io.readDisk s.2 id = .error e ∨ BufferPool.EvictionFailed io s.2 e) ∧
      (∀ page, let result := s.1.put io s.2 page true
        (result.1 = .ok () →
          result.2.1.logical content result.2.2 = Function.update pages page.id (some page.data)) ∧
          ∀ e, result.1 = .error e →
            result.2.1.logical content result.2.2 = pages ∧ BufferPool.EvictionFailed io s.2 e) ∧
      ∀ ord, let result := s.1.flush io ord s.2
        result.2.1.logical content result.2.2 = pages ∧
          (result.1 = .ok () → content result.2.2 = pages) ∧
          ∀ e, result.1 = .error e → ∃ d page, (io.writeDisk d page).1 = .error e := by
  intro s pages
  have ordered : s.1.InOrder content (newBufferPool capacity).capacity s.2 :=
    Runs.after_invariant (fun s : LinkedPool × δ => s.1.InOrder content (newBufferPool capacity).capacity s.2)
      (fun _ => True) (fun s call ordered _ => call.run_inOrder lawful s ordered) calls _
      ⟨new_linked capacity,BufferPool.new_coherent content capacity start⟩ fun _ _ => trivial
  refine ⟨⟨ordered.linked,ordered.linked.elements,?_⟩,fun id => (ordered.get lawful id).2,
    fun page => (ordered.put lawful page).2,fun ord => ?_⟩
  · have bound := ordered.coherent.bound
    have places : s.1.pool.capacity = if capacity < 1 then 1 else capacity.toNat := ordered.coherent.capacity
    rw [ordered.linked.length,places] at bound
    split at bound <;> omega
  · obtain ⟨-,still,done,failed⟩ := ordered.flush lawful ord
    exact ⟨still,fun nil => (done nil).trans still,failed⟩

end coherence

def faultyDisk : Disk ((Nat → Option Block) × Nat) where
  readDisk d id :=
    match d.1 id with
    | some block => .ok block
    | none => .error (.noSuchPage id 0)
  writeDisk d page :=
    if d.2 % 2 = 1 then (.error (.noSuchPage page.id 0),Function.update d.1 page.id none,d.2 + 1)
    else (.ok (),Function.update d.1 page.id (some page.data),d.2 + 1)

theorem faultyDisk_lawful : faultyDisk.Lawful fun d => d.1 where
  read {d id block} read := by
    unfold faultyDisk at read
    dsimp only at read
    split at read
    · rename_i found
      rw [← Except.ok.inj read,found]
    · cases read
  written {d d' page} write := by
    unfold faultyDisk at write
    dsimp only at write
    split_ifs at write
    · cases write
    · obtain ⟨-,rfl⟩ := Prod.mk.inj write
      rfl
  failed {d d' page e} write id other := by
    unfold faultyDisk at write
    dsimp only at write
    split_ifs at write
    · obtain ⟨-,rfl⟩ := Prod.mk.inj write
      exact Function.update_of_ne other _ _
    · cases write

/-- One place: the second page evicts the first, and nothing evicts the second when the write fails. -/
theorem pool_coherent_faulty :
    let s := Runs.after (Call.run faultyDisk) [.put (newPage 0),.put (newPage 1),.get 0]
      (newLinkedPool 0,fun _ => none,0)
    s.1.lru = [1] ∧ (s.1.lru.length : Int) ≤ max 1 0 ∧
      ∀ ord, let result := s.1.flush faultyDisk ord s.2
        result.1 = .ok () → result.2.2.1 = s.1.logical (fun d => d.1) s.2 := by
  intro s
  obtain ⟨⟨-,-,bound⟩,-,-,flushed⟩ := pool_coherent faultyDisk_lawful 0 (fun _ => none,0)
    [.put (newPage 0),.put (newPage 1),.get 0]
  exact ⟨by decide +kernel,bound,fun ord => (flushed ord).2.1⟩

end LinkedPool
end GoDb
