import GoDb.DecimalText
import GoDb.Foundation.Coupling
import GoDb.LexerMeaning
import GoDb.ParserReading
import GoDb.PreparedMeaning
import Mathlib.Data.List.Forall2

/-! A prepared statement with its arguments is the statement that has their literals in
place of the parameters. The strict parser on the tokens with parameters and the parser of
the source on the tokens with literals run side by side: they stand at the same position,
and what they have read differs by the values that are bound. -/
namespace GoDb.Parser
open Foundation Outcome

/-- A parameter and a token for the value that is bound to it, or the same token twice. -/
structure Stands (f : Value → Value) (tok tok' : Token) : Prop where
  same : tok.type ≠ .parameter → tok' = tok
  read : ∀ v, value tok = .ok v → value tok' = .ok (f v)

structure Matched (f : Value → Value) (t t' : List Token) : Prop where
  tokens : List.Forall₂ (Stands f) t t'
  nil : f .nil = .nil

structure Track (t t' : List Token) (seen : List Value) (s s' : Parser) : Prop where
  first : s.t = t
  second : s' = ⟨t',s.p⟩
  seen : ∀ k tok, k < s.p → t[k]? = some tok → tok.type = .parameter → ∃ v ∈ seen, value tok = .ok v

variable {α β : Type} {m : Value → Value} {t t' : List Token} {seen : List Value} {f : α → α}
  {read : α → List Value} {x y : ParserM α}

def Tracks (t t' : List Token) (seen : List Value) (f : α → α) (read : α → List Value) (x y : ParserM α) : Prop :=
  Coupled (Track t t' seen) x y fun a b s s' => b = f a ∧ Track t t' (read a) s s'

def Carries (t t' : List Token) (f : α → α) (values : α → List Value) (x y : ParserM α) : Prop :=
  ∀ seen, Tracks t t' seen f (fun a => seen ++ values a) x y

def Same (t t' : List Token) (x y : ParserM α) : Prop := ∀ seen, Tracks t t' seen id (fun _ => seen) x y

theorem Matched.length (matched : Matched m t t') : t'.length = t.length := matched.tokens.length_eq.symm

variable {tok : Token} {s : Parsed} {left : Parser} {v : Value} {body tokens : List Token} {args : List Value}

theorem Matched.at_index (matched : Matched m t t') {k : Nat} (there : t[k]? = some tok) :
    ∃ tok', t'[k]? = some tok' ∧ Stands m tok tok' := by
  obtain ⟨small,rfl⟩ := List.getElem?_eq_some_iff.mp there
  have small' : k < t'.length := matched.length.symm ▸ small
  exact ⟨t'[k],List.getElem?_eq_getElem small',matched.tokens.get small small'⟩

theorem Track.mono {more : List Value} {s s' : Parser} (track : Track t t' seen s s') (sub : seen ⊆ more) :
    Track t t' more s s' where
  first := track.first
  second := track.second
  seen k tok before there is := by
    obtain ⟨v,member,found⟩ := track.seen k tok before there is
    exact ⟨v,sub member,found⟩

namespace Tracks

variable {g : β → β} {read' : β → List Value} {k l : α → ParserM β}

theorem bind (first : Tracks t t' seen f read x y) (next : ∀ a, Tracks t t' (read a) g read' (k a) (l (f a))) :
    Tracks t t' seen g read' (x >>= k) (y >>= l) := by
  apply Coupled.bind first
  intro a b s s' related
  obtain ⟨rfl,track⟩ := related
  exact next a s s' track

theorem same (first : Same t t' x y) (next : ∀ a, Tracks t t' seen g read' (k a) (l a)) :
    Tracks t t' seen g read' (x >>= k) (y >>= l) := bind (first seen) next

theorem carry {values : α → List Value} (first : Carries t t' f values x y)
    (next : ∀ a, Tracks t t' (seen ++ values a) g read' (k a) (l (f a))) :
    Tracks t t' seen g read' (x >>= k) (y >>= l) := bind (first seen) next

theorem pure {a b : α} (result : b = f a) (sub : seen ⊆ read a) :
    Tracks t t' seen f read (Pure.pure a) (Pure.pure b) :=
  Coupled.pure fun _ _ track => ⟨result,track.mono sub⟩

theorem throw (e : SyntaxError) : Tracks t t' seen f read (MonadExcept.throw e) y := Coupled.throw e

theorem ite {p : Prop} [Decidable p] {x' y' : ParserM α} (yes : Tracks t t' seen f read x y)
    (no : Tracks t t' seen f read x' y') : Tracks t t' seen f read (if p then x else x') (if p then y else y') :=
  Coupled.ite yes no

theorem mono {read' : α → List Value} (tracks : Tracks t t' seen f read x y) (sub : ∀ a, read a ⊆ read' a) :
    Tracks t t' seen f read' x y :=
  Coupled.mono tracks fun a _ _ _ related => ⟨related.1,related.2.mono (sub a)⟩

end Tracks

namespace Same

variable {k l : α → ParserM β}

theorem bind (first : Same t t' x y) (next : ∀ a, Same t t' (k a) (l a)) : Same t t' (x >>= k) (y >>= l) :=
  fun seen => Tracks.same first fun a => next a seen

theorem pure (a : α) : Same t t' (Pure.pure a) (Pure.pure a) := fun _ => Tracks.pure rfl (List.Subset.refl _)

theorem throw (e : SyntaxError) : Same t t' (MonadExcept.throw e) y := fun _ => Tracks.throw e

theorem ite {p : Prop} [Decidable p] {x' y' : ParserM α} (yes : Same t t' x y) (no : Same t t' x' y') :
    Same t t' (if p then x else x') (if p then y else y') := fun seen => Tracks.ite (yes seen) (no seen)

theorem of (r : Except SyntaxError α) : Same t t' (Proc.of r) (Proc.of r) := by
  cases r with
  | error e => exact throw e
  | ok a => exact pure a

theorem refuse (p : Prop) [Decidable p] (e : SyntaxError) : Same t t' (Proc.refuse p e) (Proc.refuse p e) :=
  ite (throw e) (pure ())

theorem carries (same : Same t t' x y) : Carries t t' id (fun _ => []) x y := fun seen =>
  (same seen).mono fun _ => List.subset_append_left seen []

end Same

theorem turns_tracks (matched : Matched m t t') {loop loop' : Nat → ParserM α}
    (loops : ∀ n, Tracks t t' seen f read (loop n) (loop' n)) :
    Tracks t t' seen f read (turns loop) (turns loop') := by
  intro s s' track a left done
  have turns : s'.t.length = s.t.length := by rw [track.second,track.first,matched.length]
  rw [turns_exec] at done ⊢
  rw [turns]
  exact loops _ s s' track a left done

theorem strict_look_success {k : Nat} {s : Parser} (done : (strict.look k).exec s = (.ok tok,left)) :
    s.t[s.p + k]? = some tok ∧ tok.type ≠ .parameter ∧ left = s := by
  obtain ⟨found,mid,looked,rest⟩ := bind_success done
  obtain ⟨there,rfl⟩ := look_success looked
  rw [exec_bind,exec_refuse] at rest
  split_ifs at rest with parameter
  · cases rest
  · obtain ⟨same,rfl⟩ := Prod.mk.inj rest
    obtain rfl := Except.ok.inj same
    exact ⟨there,parameter,rfl⟩

theorem strict_take_success {s : Parser} {u : Unit} (done : strict.take.exec s = (.ok u,left)) :
    ∃ tok, s.t[s.p]? = some tok ∧ tok.type ≠ .parameter ∧ left = s.advance := by
  obtain ⟨tok,mid,looked,rest⟩ := bind_success done
  obtain ⟨there,rfl⟩ := look_success looked
  rw [exec_bind,exec_refuse] at rest
  split_ifs at rest with parameter
  · cases rest
  · exact ⟨tok,there,parameter,(Prod.mk.inj rest).2.symm⟩

theorem readValue_success {s : Parser} (done : readValue.exec s = (.ok v,left)) :
    ∃ tok, s.t[s.p]? = some tok ∧ value tok = .ok v ∧ left = s.advance := by
  obtain ⟨tok,mid,looked,rest⟩ := bind_success done
  obtain ⟨there,rfl⟩ := look_success looked
  obtain ⟨v',found,rest⟩ := of_bind_success rest
  obtain ⟨same,taken⟩ := Prod.mk.inj rest
  obtain rfl := Except.ok.inj same
  exact ⟨tok,there,found,taken.symm⟩

section steps

variable (matched : Matched m t t')
include matched

theorem Track.advance {more : List Value} {s s' : Parser} (track : Track t t' seen s s') (here : t[s.p]? = some tok)
    (read : tok.type = .parameter → ∃ v ∈ more, value tok = .ok v) (sub : seen ⊆ more) :
    Track t t' more s.advance s'.advance := by
  have length := matched.length
  rw [track.second]
  unfold Parser.advance
  rw [track.first,length]
  split_ifs with before
  · refine ⟨rfl,rfl,fun k tok' earlier there is => ?_⟩
    rcases Nat.lt_succ_iff_lt_or_eq.mp earlier with earlier | rfl
    · exact (track.mono sub).seen k tok' earlier there is
    · obtain rfl := Option.some.inj (here.symm.trans there)
      exact read is
  · exact ⟨track.first,rfl,(track.mono sub).seen⟩

theorem look_same (k : Nat) : Same t t' (strict.look k) (plain.look k) := by
  intro seen s s' track tok left done
  obtain ⟨there,other,rfl⟩ := strict_look_success done
  rw [track.first] at there
  obtain ⟨tok',there',stands⟩ := matched.at_index there
  obtain rfl := stands.same other
  refine ⟨tok',s',look_of ?_,rfl,track⟩
  rw [track.second]
  exact there'

theorem take_same : Same t t' strict.take plain.take := by
  intro seen s s' track a left done
  obtain ⟨tok,there,other,rfl⟩ := strict_take_success done
  rw [track.first] at there
  exact ⟨(),s'.advance,rfl,rfl,track.advance matched there (fun is => absurd is other) (List.Subset.refl _)⟩

theorem readValue_carries : Carries t t' m (fun v => [v]) readValue readValue := by
  intro seen s s' track v left done
  obtain ⟨tok,there,found,rfl⟩ := readValue_success done
  rw [track.first] at there
  obtain ⟨tok',there',stands⟩ := matched.at_index there
  refine ⟨m v,s'.advance,?_,rfl,track.advance matched there ?_ (List.subset_append_left _ _)⟩
  · have here : s'.t[s'.p + 0]? = some tok' := by
      rw [track.second]
      exact there'
    unfold readValue
    rw [exec_bind_ok (look_of here),exec_of_bind (stands.read v found)]
    rfl
  · exact fun _ => ⟨v,List.mem_append_right _ (List.mem_singleton.mpr rfl),found⟩

theorem is_same (w : String) : Same t t' (is strict w) (is plain w) :=
  Same.bind (look_same matched 0) fun _ => Same.pure _

theorem isType_same (type : TokenType) : Same t t' (isType strict type) (isType plain type) :=
  Same.bind (look_same matched 0) fun _ => Same.pure _

theorem word_same : Same t t' (word strict) (word plain) :=
  Same.bind (look_same matched 0) fun _ => Same.bind (take_same matched) fun _ => Same.pure _

theorem want_same (w : String) : Same t t' (want strict w) (want plain w) :=
  Same.bind (look_same matched 0) fun _ => Same.ite (take_same matched) (Same.throw _)

theorem takeIf_same (b : Bool) : Same t t' (takeIf strict b) (takeIf plain b) :=
  Same.ite (take_same matched) (Same.pure ())

theorem turns_same {loop loop' : Nat → ParserM α} (loops : ∀ n, Same t t' (loop n) (loop' n)) :
    Same t t' (turns loop) (turns loop') := fun seen => turns_tracks matched fun n => loops n seen

theorem commaList_carries {item item' : ParserM α} {values : α → List Value} (items : Carries t t' f values item item')
    (n : Nat) : Carries t t' (List.map f) (List.flatMap values) (commaList strict item n) (commaList plain item' n) := by
  induction n with
  | zero => exact fun seen => Tracks.throw _
  | succ n ih =>
    intro seen
    apply Tracks.carry items
    intro a
    apply Tracks.same (isType_same matched _)
    intro comma
    apply Tracks.ite
    · apply Tracks.same (take_same matched)
      intro _
      apply Tracks.carry ih
      intro rest
      apply Tracks.pure rfl
      simp
    · apply Tracks.pure rfl
      simp

theorem commaList_same {item item' : ParserM α} (items : Same t t' item item') (n : Nat) :
    Same t t' (commaList strict item n) (commaList plain item' n) := by
  intro seen
  have none (list : List α) : list.flatMap (fun _ => ([] : List Value)) = [] :=
    List.flatMap_eq_nil_iff.mpr fun _ _ => rfl
  have tracks := commaList_carries matched items.carries n seen
  rw [List.map_id_fun] at tracks
  apply tracks.mono
  intro list
  rw [none,List.append_nil]
  exact List.Subset.refl seen

theorem test_carries (col : Bytes) :
    Carries t t' (Condition.mapValues m) Condition.values (test strict col) (test plain col) := by
  intro seen
  apply Tracks.same (is_same matched _)
  intro null
  apply Tracks.ite
  · apply Tracks.same (take_same matched)
    intro _
    apply Tracks.same (is_same matched _)
    intro negated
    apply Tracks.same (takeIf_same matched _)
    intro _
    apply Tracks.same (is_same matched _)
    intro found
    apply Tracks.same (Same.refuse _ _)
    intro _
    apply Tracks.same (take_same matched)
    intro _
    apply Tracks.pure
    · rw [Condition.mapValues,matched.nil]
    · exact List.subset_append_left _ _
  · apply Tracks.same (look_same matched 0)
    intro tok
    split
    · exact Tracks.throw _
    · apply Tracks.same (take_same matched)
      intro _
      apply Tracks.carry (readValue_carries matched)
      intro v
      exact Tracks.pure rfl (List.Subset.refl _)

theorem chain_carries {w : String} {join : Condition → Condition → Condition} {operand operand' : ParserM Condition}
    (operands : Carries t t' (Condition.mapValues m) Condition.values operand operand')
    (maps : ∀ c d, (join c d).mapValues m = join (c.mapValues m) (d.mapValues m))
    (values : ∀ c d, (join c d).values = c.values ++ d.values) (n : Nat) (c : Condition) :
    Tracks t t' (seen ++ c.values) (Condition.mapValues m) (fun c => seen ++ c.values)
      (chain strict w join operand n c) (chain plain w join operand' n (c.mapValues m)) := by
  induction n generalizing c with
  | zero => exact Tracks.throw _
  | succ n ih =>
    apply Tracks.same (is_same matched _)
    intro more
    apply Tracks.ite
    · apply Tracks.same (take_same matched)
      intro _
      apply Tracks.carry operands
      intro right
      have next := ih (join c right)
      rw [maps,values,← List.append_assoc] at next
      exact next
    · exact Tracks.pure rfl (List.Subset.refl _)

variable {inner inner' : ParserM Condition}

theorem parsePrimary_carries (inners : Carries t t' (Condition.mapValues m) Condition.values inner inner') :
    Carries t t' (Condition.mapValues m) Condition.values (parsePrimary strict inner) (parsePrimary plain inner') := by
  intro seen
  apply Tracks.same (isType_same matched _)
  intro paren
  apply Tracks.ite
  · apply Tracks.same (take_same matched)
    intro _
    apply Tracks.carry inners
    intro c
    apply Tracks.same (want_same matched _)
    intro _
    exact Tracks.pure rfl (List.Subset.refl _)
  · apply Tracks.same (word_same matched)
    intro col
    exact test_carries matched col seen

theorem parseAnd_carries (inners : Carries t t' (Condition.mapValues m) Condition.values inner inner') :
    Carries t t' (Condition.mapValues m) Condition.values (parseAnd strict inner) (parseAnd plain inner') := by
  intro seen
  apply Tracks.carry (parsePrimary_carries matched inners)
  intro c
  apply turns_tracks matched
  intro n
  apply chain_carries matched (parsePrimary_carries matched inners)
  · exact fun _ _ => rfl
  · exact fun _ _ => rfl

theorem parseOr_carries (depth : Nat) :
    Carries t t' (Condition.mapValues m) Condition.values (parseOr strict depth) (parseOr plain depth) := by
  induction depth with
  | zero => exact fun seen => Tracks.throw _
  | succ depth ih =>
    intro seen
    apply Tracks.carry (parseAnd_carries matched ih)
    intro c
    apply turns_tracks matched
    intro n
    apply chain_carries matched (parseAnd_carries matched ih)
    · exact fun _ _ => rfl
    · exact fun _ _ => rfl

theorem condition_carries :
    Carries t t' (Option.map (Condition.mapValues m)) whereValues (condition strict) (condition plain) := by
  intro seen
  apply Tracks.same (is_same matched _)
  intro there
  apply Tracks.ite
  · apply Tracks.same (take_same matched)
    intro _
    have tree : Carries t t' (Condition.mapValues m) Condition.values (turns (parseOr strict)) (turns (parseOr plain)) :=
      fun seen => turns_tracks matched fun n => parseOr_carries matched n seen
    apply Tracks.carry tree
    intro c
    exact Tracks.pure rfl (List.Subset.refl _)
  · exact Tracks.pure rfl (List.subset_append_left _ _)

theorem selectColumn_same : Same t t' (selectColumn strict) (selectColumn plain) := by
  apply Same.bind (look_same matched 0)
  intro tok
  split
  · exact word_same matched
  · apply Same.bind (look_same matched 1)
    intro next
    apply Same.ite _ (word_same matched)
    apply Same.bind (take_same matched)
    intro _
    apply Same.bind (take_same matched)
    intro _
    apply Same.bind (word_same matched)
    intro arg
    exact Same.bind (want_same matched _) fun _ => Same.pure _

theorem atJoin_same : Same t t' (atJoin strict) (atJoin plain) := by
  apply Same.bind (is_same matched _)
  intro joins
  apply Same.ite (Same.pure _)
  apply Same.bind (is_same matched _)
  intro inner
  exact Same.ite (Same.bind (look_same matched 1) fun _ => Same.pure _) (Same.pure _)

theorem join_same : Same t t' (join strict) (join plain) := by
  apply Same.bind (atJoin_same matched)
  rintro ⟨joins,inner⟩
  apply Same.ite _ (Same.pure _)
  apply Same.bind (takeIf_same matched _)
  intro _
  apply Same.bind (take_same matched)
  intro _
  apply Same.bind (word_same matched)
  intro table
  apply Same.bind (want_same matched _)
  intro _
  apply Same.bind (word_same matched)
  intro left
  apply Same.bind (want_same matched _)
  intro _
  exact Same.bind (word_same matched) fun _ => Same.pure _

theorem groupBy_same : Same t t' (groupBy strict) (groupBy plain) := by
  apply Same.bind (is_same matched _)
  intro there
  apply Same.ite _ (Same.pure _)
  apply Same.bind (take_same matched)
  intro _
  apply Same.bind (want_same matched _)
  intro _
  exact turns_same matched (commaList_same matched (word_same matched))

theorem orderBy_same : Same t t' (orderBy strict) (orderBy plain) := by
  apply Same.bind (is_same matched _)
  intro there
  apply Same.ite _ (Same.pure _)
  apply Same.bind (take_same matched)
  intro _
  apply Same.bind (want_same matched _)
  intro _
  apply Same.bind (word_same matched)
  intro column
  apply Same.bind (is_same matched _)
  intro asc
  apply Same.bind (is_same matched _)
  intro desc
  exact Same.bind (takeIf_same matched _) fun _ => Same.pure _

theorem readInt_same : Same t t' (readInt strict) (readInt plain) := by
  apply Same.bind (look_same matched 0)
  intro tok
  apply Same.bind (Same.of _)
  intro v
  split
  · exact Same.bind (take_same matched) fun _ => Same.pure _
  · exact Same.throw _

theorem bound_same (name : String) (absent : Int64) : Same t t' (bound strict name absent) (bound plain name absent) := by
  apply Same.bind (is_same matched _)
  intro there
  exact Same.ite (Same.bind (take_same matched) fun _ => readInt_same matched) (Same.pure _)

theorem selectStmt_carries :
    Carries t t' (Statement.mapValues m) Statement.values (selectStmt strict) (selectStmt plain) := by
  intro seen
  apply Tracks.same (take_same matched)
  intro _
  apply Tracks.same (turns_same matched (commaList_same matched (selectColumn_same matched)))
  intro columns
  apply Tracks.same (want_same matched _)
  intro _
  apply Tracks.same (word_same matched)
  intro table
  apply Tracks.same (join_same matched)
  rintro ⟨joinTable,joinLeft,joinRight⟩
  apply Tracks.carry (condition_carries matched)
  intro w
  apply Tracks.same (groupBy_same matched)
  intro groups
  apply Tracks.same (orderBy_same matched)
  rintro ⟨order,desc⟩
  apply Tracks.same (bound_same matched _ _)
  intro limit
  apply Tracks.same (bound_same matched _ _)
  intro offset
  exact Tracks.pure rfl (List.Subset.refl _)

theorem insertStmt_carries :
    Carries t t' (Statement.mapValues m) Statement.values (insertStmt strict) (insertStmt plain) := by
  intro seen
  apply Tracks.same (take_same matched)
  intro _
  apply Tracks.same (want_same matched _)
  intro _
  apply Tracks.same (word_same matched)
  intro table
  apply Tracks.same (want_same matched _)
  intro _
  apply Tracks.same (turns_same matched (commaList_same matched (word_same matched)))
  intro columns
  apply Tracks.same (want_same matched _)
  intro _
  apply Tracks.same (want_same matched _)
  intro _
  apply Tracks.same (want_same matched _)
  intro _
  have list : Carries t t' (List.map m) id (turns (commaList strict readValue)) (turns (commaList plain readValue)) := by
    intro seen
    apply turns_tracks matched
    intro n
    apply (commaList_carries matched (readValue_carries matched) n seen).mono
    intro values
    rw [List.flatMap_singleton']
    exact List.Subset.refl _
  apply Tracks.carry list
  intro values
  apply Tracks.same (want_same matched _)
  intro _
  rw [List.length_map]
  apply Tracks.same (Same.refuse _ _)
  intro _
  exact Tracks.pure rfl (List.Subset.refl _)

omit matched in
theorem mapValues_insert (set : GoMap Value) (n : Bytes) (v : Value) :
    (set.insert n v).mapValues m = (set.mapValues m).insert n (m v) := by
  ext key w
  rw [SortedMap.lookup_mapValues,SortedMap.lookup_insert,SortedMap.lookup_insert,SortedMap.lookup_mapValues]
  split_ifs <;> rfl

omit matched in
theorem values_insert {set : GoMap Value} {n : Bytes} (fresh : set.lookup n = none) (v : Value) :
    set.entries.map Prod.snd ++ [v] ⊆ (set.insert n v).entries.map Prod.snd := by
  intro w member
  rcases List.mem_append.mp member with old | new
  · obtain ⟨e,there,rfl⟩ := List.mem_map.mp old
    have found := (SortedMap.mem_entries e).mp there
    have other : e.1 ≠ n := by
      intro same
      rw [same,fresh] at found
      cases found
    apply List.mem_map_of_mem
    rw [SortedMap.mem_entries,SortedMap.lookup_insert,if_neg other]
    exact found
  · obtain rfl := List.mem_singleton.mp new
    refine List.mem_map.mpr ⟨(n,w),?_,rfl⟩
    rw [SortedMap.mem_entries,SortedMap.lookup_insert,if_pos rfl]

omit matched in
theorem assign_tracks (set : GoMap Value) (n : Bytes) (v : Value) :
    Tracks t t' (seen ++ set.entries.map Prod.snd ++ [v]) (SortedMap.mapValues m)
      (fun set => seen ++ set.entries.map Prod.snd) (strict.assign set n v) (plain.assign (set.mapValues m) n (m v)) := by
  intro s s' track set' left done
  obtain ⟨_,_,refused,rest⟩ := bind_success done
  rw [exec_refuse] at refused
  obtain ⟨allowed,rfl⟩ := Prod.mk.inj refused
  obtain ⟨same,rfl⟩ := Prod.mk.inj rest
  obtain rfl := Except.ok.inj same
  split_ifs at allowed with used
  have fresh : set.lookup n = none := Option.not_isSome_iff_eq_none.mp used
  refine ⟨_,s',rfl,(mapValues_insert set n v).symm,track.mono ?_⟩
  rw [List.append_assoc]
  exact List.append_subset.mpr ⟨List.subset_append_left _ _,List.subset_append_of_subset_right _ (values_insert fresh v)⟩

theorem assignments_tracks (n : Nat) (set : GoMap Value) :
    Tracks t t' (seen ++ set.entries.map Prod.snd) (SortedMap.mapValues m) (fun set => seen ++ set.entries.map Prod.snd)
      (assignments strict n set) (assignments plain n (set.mapValues m)) := by
  induction n generalizing set with
  | zero => exact Tracks.throw _
  | succ n ih =>
    apply Tracks.same (word_same matched)
    intro name
    apply Tracks.same (want_same matched _)
    intro _
    apply Tracks.carry (readValue_carries matched)
    intro v
    apply Tracks.bind (assign_tracks set name v)
    intro set'
    apply Tracks.same (isType_same matched _)
    intro comma
    apply Tracks.ite
    · apply Tracks.same (take_same matched)
      intro _
      exact ih set'
    · exact Tracks.pure rfl (List.Subset.refl _)

theorem updateStmt_carries :
    Carries t t' (Statement.mapValues m) Statement.values (updateStmt strict) (updateStmt plain) := by
  intro seen
  apply Tracks.same (take_same matched)
  intro _
  apply Tracks.same (word_same matched)
  intro table
  apply Tracks.same (want_same matched _)
  intro _
  have sets : Carries t t' (SortedMap.mapValues m) (fun set : GoMap Value => set.entries.map Prod.snd)
      (turns fun n => assignments strict n ∅) (turns fun n => assignments plain n ∅) := by
    intro seen
    apply turns_tracks matched
    intro n
    have tracks : Tracks t t' (seen ++ []) (SortedMap.mapValues m) (fun set => seen ++ set.entries.map Prod.snd)
        (assignments strict n ∅) (assignments plain n ∅) := assignments_tracks matched n ∅
    rwa [List.append_nil] at tracks
  apply Tracks.carry sets
  intro set
  apply Tracks.carry (condition_carries matched)
  intro w
  apply Tracks.pure rfl
  rw [List.append_assoc]
  exact List.Subset.refl _

theorem deleteStmt_carries :
    Carries t t' (Statement.mapValues m) Statement.values (deleteStmt strict) (deleteStmt plain) := by
  intro seen
  apply Tracks.same (take_same matched)
  intro _
  apply Tracks.same (want_same matched _)
  intro _
  apply Tracks.same (word_same matched)
  intro table
  apply Tracks.carry (condition_carries matched)
  intro w
  exact Tracks.pure rfl (List.Subset.refl _)

theorem constraintLoop_same (n : Nat) (c : ColumnConstraint) :
    Same t t' (constraintLoop strict n c) (constraintLoop plain n c) := by
  induction n generalizing c with
  | zero => exact Same.throw _
  | succ n ih =>
    apply Same.bind (is_same matched _)
    intro negated
    apply Same.ite
    · apply Same.bind (take_same matched)
      intro _
      exact Same.bind (want_same matched _) fun _ => ih _
    apply Same.bind (is_same matched _)
    intro unique
    apply Same.ite
    · exact Same.bind (take_same matched) fun _ => ih _
    apply Same.bind (is_same matched _)
    intro references
    apply Same.ite _ (Same.pure _)
    apply Same.bind (take_same matched)
    intro _
    apply Same.bind (word_same matched)
    intro table
    apply Same.bind (want_same matched _)
    intro _
    apply Same.bind (word_same matched)
    intro column
    exact Same.bind (want_same matched _) fun _ => ih _

theorem createColumn_same : Same t t' (createColumn strict) (createColumn plain) := by
  apply Same.bind (word_same matched)
  intro n
  apply Same.bind (word_same matched)
  intro typ
  apply Same.bind (Same.of _)
  intro ct
  exact Same.bind (turns_same matched fun n => constraintLoop_same matched n _) fun _ => Same.pure _

theorem createStmt_carries :
    Carries t t' (Statement.mapValues m) Statement.values (createStmt strict) (createStmt plain) := by
  intro seen
  apply Tracks.same (take_same matched)
  intro _
  apply Tracks.same (want_same matched _)
  intro _
  apply Tracks.same (word_same matched)
  intro table
  apply Tracks.same (want_same matched _)
  intro _
  apply Tracks.same (turns_same matched (commaList_same matched (createColumn_same matched)))
  intro columns
  apply Tracks.same (want_same matched _)
  intro _
  exact Tracks.pure rfl (List.subset_append_left _ _)

theorem dropStmt_carries : Carries t t' (Parsed.mapValues m) Parsed.values (dropStmt strict) (dropStmt plain) := by
  intro seen
  apply Tracks.same (take_same matched)
  intro _
  apply Tracks.same (is_same matched _)
  intro there
  apply Tracks.ite _ (Tracks.throw _)
  apply Tracks.same (take_same matched)
  intro _
  apply Tracks.same (word_same matched)
  intro n
  exact Tracks.pure rfl (List.subset_append_left _ _)

theorem alterStmt_carries : Carries t t' (Parsed.mapValues m) Parsed.values (alterStmt strict) (alterStmt plain) := by
  intro seen
  apply Tracks.same (take_same matched)
  intro _
  apply Tracks.same (want_same matched _)
  intro _
  apply Tracks.same (word_same matched)
  intro table
  apply Tracks.same (word_same matched)
  intro action
  apply Tracks.ite
  · apply Tracks.same (want_same matched _)
    intro _
    apply Tracks.same (word_same matched)
    intro n
    apply Tracks.same (word_same matched)
    intro typ
    apply Tracks.same (Same.of _)
    intro ct
    exact Tracks.pure rfl (List.subset_append_left _ _)
  apply Tracks.ite
  · apply Tracks.same (want_same matched _)
    intro _
    apply Tracks.same (word_same matched)
    intro n
    exact Tracks.pure rfl (List.subset_append_left _ _)
  apply Tracks.ite _ (Tracks.throw _)
  apply Tracks.same (want_same matched _)
  intro _
  apply Tracks.same (word_same matched)
  intro n
  apply Tracks.same (want_same matched _)
  intro _
  apply Tracks.same (word_same matched)
  intro newName
  exact Tracks.pure rfl (List.subset_append_left _ _)

omit matched in
theorem Carries.map {x y : ParserM Statement} {make : Statement → Parsed}
    (carries : Carries t t' (Statement.mapValues m) Statement.values x y)
    (maps : ∀ s, (make s).mapValues m = make (s.mapValues m)) (values : ∀ s, (make s).values = s.values) :
    Carries t t' (Parsed.mapValues m) Parsed.values (make <$> x) (make <$> y) := by
  intro seen
  rw [← bind_pure_comp,← bind_pure_comp]
  apply Tracks.carry carries
  intro s
  apply Tracks.pure (maps s).symm
  rw [values]
  exact List.Subset.refl _

omit matched in
theorem Carries.plain {x y : ParserM Statement} (carries : Carries t t' (Statement.mapValues m) Statement.values x y) :
    Carries t t' (Parsed.mapValues m) Parsed.values (Parsed.plain <$> x) (Parsed.plain <$> y) :=
  carries.map (fun _ => rfl) fun _ => rfl

omit matched in
theorem Carries.explain {x y : ParserM Statement} (carries : Carries t t' (Statement.mapValues m) Statement.values x y) :
    Carries t t' (Parsed.mapValues m) Parsed.values (Parsed.explain <$> x) (Parsed.explain <$> y) :=
  carries.map (fun _ => rfl) fun _ => rfl

theorem explainStmt_carries :
    Carries t t' (Parsed.mapValues m) Parsed.values (explainStmt strict) (explainStmt plain) := by
  intro seen
  apply Tracks.same (look_same matched 0)
  intro tok
  apply Tracks.same (Same.refuse _ _)
  intro _
  apply Tracks.ite
  · apply Tracks.same (take_same matched)
    intro _
    apply Tracks.same (look_same matched 0)
    intro tok
    apply Tracks.same (Same.refuse _ _)
    intro _
    apply Tracks.same (word_same matched)
    intro table
    exact Tracks.pure rfl (List.subset_append_left _ _)
  apply Tracks.ite ((selectStmt_carries matched).explain seen)
  apply Tracks.ite ((insertStmt_carries matched).explain seen)
  apply Tracks.ite ((updateStmt_carries matched).explain seen)
  apply Tracks.ite ((deleteStmt_carries matched).explain seen)
  exact Tracks.throw _

theorem listStmt_carries (first : String) :
    Carries t t' (Parsed.mapValues m) Parsed.values (listStmt strict first) (listStmt plain first) := by
  intro seen
  apply Tracks.same (want_same matched _)
  intro _
  apply Tracks.same (want_same matched _)
  intro _
  exact Tracks.pure rfl (List.subset_append_left _ _)

theorem control_carries {s : Statement} (fixed : s.mapValues m = s) :
    Carries t t' (Parsed.mapValues m) Parsed.values (control strict s) (control plain s) := by
  intro seen
  apply Tracks.same (take_same matched)
  intro _
  apply Tracks.pure
  · rw [Parsed.mapValues,fixed]
  · exact List.subset_append_left _ _

theorem statement_carries : Carries t t' (Parsed.mapValues m) Parsed.values (statement strict) (statement plain) := by
  intro seen
  apply Tracks.same (look_same matched 0)
  intro tok
  apply Tracks.ite (control_carries matched rfl seen)
  apply Tracks.ite (control_carries matched rfl seen)
  apply Tracks.ite (control_carries matched rfl seen)
  apply Tracks.ite (Tracks.same (take_same matched) fun _ => explainStmt_carries matched seen)
  apply Tracks.ite ((selectStmt_carries matched).plain seen)
  apply Tracks.ite ((insertStmt_carries matched).plain seen)
  apply Tracks.ite ((createStmt_carries matched).plain seen)
  apply Tracks.ite (dropStmt_carries matched seen)
  apply Tracks.ite (alterStmt_carries matched seen)
  apply Tracks.ite ((updateStmt_carries matched).plain seen)
  apply Tracks.ite ((deleteStmt_carries matched).plain seen)
  apply Tracks.ite (listStmt_carries matched _ seen)
  apply Tracks.ite (listStmt_carries matched _ seen)
  exact Tracks.throw _

theorem whole_carries : Carries t t' (Parsed.mapValues m) Parsed.values (whole strict) (whole plain) := by
  intro seen
  apply Tracks.carry (statement_carries matched)
  intro s
  apply Tracks.same (isType_same matched _)
  intro ended
  apply Tracks.same (takeIf_same matched _)
  intro _
  apply Tracks.same (look_same matched 0)
  intro tok
  apply Tracks.same (Same.refuse _ _)
  intro _
  exact Tracks.pure rfl (List.Subset.refl _)

end steps

theorem whole_ends {start : Parser} (done : (whole strict).exec start = (.ok s,left)) :
    ∃ tok, left.t[left.p]? = some tok ∧ tok.type = .eof := by
  obtain ⟨_,_,_,rest⟩ := bind_success done
  obtain ⟨_,_,_,rest⟩ := bind_success rest
  obtain ⟨_,_,_,rest⟩ := bind_success rest
  obtain ⟨tok,last,looked,final⟩ := bind_success rest
  obtain ⟨there,_,rfl⟩ := strict_look_success looked
  rw [exec_bind,exec_refuse] at final
  split_ifs at final with more
  · cases final
  · obtain ⟨_,rfl⟩ := Prod.mk.inj final
    exact ⟨tok,there,not_not.mp more⟩

theorem parseTokens_strict (matched : Matched m t t') (lexed : Lexer.Lexed t body)
    (parsed : parseTokens strict t = .ok s) :
    parseTokens plain t' = .ok (s.mapValues m) ∧
      ∀ tok ∈ t, tok.type = .parameter → ∃ v ∈ s.values, value tok = .ok v := by
  have done : (whole strict).exec ⟨t,0⟩ = (.ok s,((whole strict).exec ⟨t,0⟩).2) := Prod.ext parsed rfl
  have start : Track t t' [] ⟨t,0⟩ ⟨t',0⟩ := ⟨rfl,rfl,fun k _ before => absurd before (Nat.not_lt_zero k)⟩
  obtain ⟨s',left',done',rfl,track⟩ := whole_carries matched [] _ _ start _ _ done
  obtain ⟨last,there,ends⟩ := whole_ends done
  generalize ((whole strict).exec ⟨t,0⟩).2 = left at track there
  refine ⟨congrArg Prod.fst done',fun tok member is => ?_⟩
  obtain ⟨k,small,rfl⟩ := List.getElem_of_mem member
  have before : k < left.p := by
    rw [track.first] at there
    rw [lexed.eof_last there ends]
    have length : t.length = body.length + 1 := by rw [lexed.ended,List.length_append,List.length_singleton]
    have other : k ≠ body.length := by
      rintro rfl
      have same : t[body.length] = ⟨.eof,[]⟩ := by simp [lexed.ended]
      rw [same] at is
      cases is
    omega
  exact track.seen k _ before (List.getElem?_eq_getElem small) is

theorem value_parameter {i : Nat} (read : value tok = .ok (.parameter i)) : tok.type = .parameter := by
  unfold value at read
  split at read
  · assumption
  · split_ifs at read
    · split at read
      · cases read
      · cases read
    · split at read
      · cases read
      · cases read
  · cases read
  · cases read
  · cases read
  · cases read

theorem value_numbered {i : Nat} (is : tok.type = .parameter) (number : tok.lexeme = 36::decimal 0 i)
    (read : value tok = .ok v) : v = .parameter i := by
  have text : (if tok.lexeme.head? = some 36 then tok.lexeme.tail else tok.lexeme) = decimal 0 i := by
    rw [number]
    exact if_pos rfl
  unfold value at read
  rw [is] at read
  dsimp only at read
  rw [text,atoi_decimal] at read
  by_cases small : i < 2^63
  · have same : (Int64.ofInt i).toInt.toNat = i := by
      rw [Int64.toInt_ofInt_of_le (by omega) (by omega)]
      exact Int.toNat_natCast i
    rw [if_pos small] at read
    dsimp only at read
    rw [same] at read
    exact (Except.ok.inj read).symm
  · rw [if_neg small] at read
    cases read

theorem value_literal (made : literal v = some tok) : value tok = .ok v := by
  cases v with
  | int i =>
    obtain rfl := Option.some.inj made
    have point : (46 : UInt8) ∉ decimalInt 0 i.toInt := by
      intro member
      unfold decimalInt at member
      split_ifs at member
      · rcases List.mem_cons.mp member with same | digit
        · cases same
        · cases decimal_digits digit
      · cases decimal_digits member
    unfold value
    dsimp only
    rw [if_neg point,atoi_decimalInt]
  | string s =>
    obtain rfl := Option.some.inj made
    rfl
  | bool b =>
    obtain rfl := Option.some.inj made
    cases b
    · rfl
    · rfl
  | nil =>
    obtain rfl := Option.some.inj made
    rfl
  | _ => cases made

def boundValue (args : List Value) (v : Value) : Value := (bindValue args v).getD v

theorem boundValue_parameter (args : List Value) (i : Nat) :
    boundValue args (.parameter i) = args[i]?.getD (.parameter i) := rfl

theorem replaced_stands (literals : ∀ a ∈ args, (literal a).isSome = true) {n : Nat}
    (numbered : Lexer.Numbered n tokens) :
    List.Forall₂ (Stands (boundValue args)) tokens (replaceParameters tokens (args.drop n)) := by
  induction tokens generalizing n with
  | nil => exact List.Forall₂.nil
  | cons tok tokens ih =>
    unfold Lexer.Numbered at numbered
    unfold replaceParameters
    split_ifs at numbered ⊢ with is
    · rw [List.tail_drop,List.head?_drop]
      refine List.Forall₂.cons ⟨fun other => absurd is other,fun v read => ?_⟩ (ih numbered.2)
      obtain rfl := value_numbered is numbered.1 read
      rw [boundValue_parameter]
      cases found : args[n]? with
      | none => exact read
      | some a =>
        obtain ⟨lit,made⟩ := Option.isSome_iff_exists.mp (literals a (List.mem_of_getElem? found))
        rw [Option.bind_some,made]
        exact value_literal made
    · refine List.Forall₂.cons ⟨fun _ => rfl,fun v read => ?_⟩ (ih numbered)
      cases v with
      | parameter i => exact absurd (value_parameter read) is
      | _ => exact read

theorem replaced_matched (literals : ∀ a ∈ args, (literal a).isSome = true) (numbered : Lexer.Numbered 0 tokens) :
    Matched (boundValue args) tokens (replaceParameters tokens args) := ⟨replaced_stands literals numbered,rfl⟩

theorem matched_below {n : Nat} (numbered : Lexer.Numbered 0 tokens) (bound : Lexer.countParameters tokens ≤ n) :
    Matched (fun v => match v with
      | .parameter i => if i < n then .parameter i else .nil
      | v => v) tokens tokens := by
  refine ⟨List.forall₂_same.mpr fun tok member => ⟨fun _ => rfl,fun v read => ?_⟩,rfl⟩
  cases v with
  | parameter i =>
    have is := value_parameter read
    obtain ⟨j,small,number⟩ := numbered.number member is
    obtain rfl := Value.parameter.inj (value_numbered is number read)
    dsimp only
    rw [if_pos (by omega)]
    exact read
  | _ => exact read

theorem matched_id (tokens : List Token) : Matched id tokens tokens :=
  ⟨List.forall₂_same.mpr fun _ _ => ⟨fun _ => rfl,fun _ read => read⟩,rfl⟩

theorem strict_plain (lexed : Lexer.Lexed tokens body) (parsed : parseTokens strict tokens = .ok s) :
    parseTokens plain tokens = .ok s := by
  have done := (parseTokens_strict (matched_id tokens) lexed parsed).1
  rwa [s.mapValues_id] at done

theorem count_parameters (lexed : Lexer.Lexed tokens body) (parsed : parseTokens strict tokens = .ok s) :
    Lexer.countParameters tokens = countStatementParameters s := by
  have numbered := lexed.numbered_tokens
  apply Nat.le_antisymm
  · rcases Nat.eq_zero_or_pos (Lexer.countParameters tokens) with none | some
    · omega
    · obtain ⟨tok,member,is,number⟩ :=
        numbered.token (Nat.zero_le (Lexer.countParameters tokens - 1)) (by omega)
      obtain ⟨v,there,read⟩ := (parseTokens_strict (matched_id tokens) lexed parsed).2 tok member is
      obtain rfl := value_numbered is number read
      have small := index_lt_count there
      omega
  · apply count_le
    intro i there
    have done := (parseTokens_strict (matched_below numbered (Nat.le_refl _)) lexed parsed).1
    have same := Except.ok.inj (done.symm.trans (strict_plain lexed parsed))
    rw [← same,Parsed.values_mapValues] at there
    obtain ⟨v,_,made⟩ := List.mem_map.mp there
    cases v with
    | parameter j =>
      dsimp only at made
      split_ifs at made with small
      exact Value.parameter.inj made ▸ small
    | _ => cases made

theorem bindValue_eq (enough : countStatementParameters s ≤ args.length) (there : v ∈ s.values) :
    bindValue args v = some (boundValue args v) := by
  cases v with
  | parameter i =>
    have small : i < args.length := Nat.lt_of_lt_of_le (index_lt_count there) enough
    rw [boundValue_parameter,List.getElem?_eq_getElem small]
    exact List.getElem?_eq_getElem small
  | _ => rfl

theorem boundValue_ne (enough : countStatementParameters s ≤ args.length)
    (literals : ∀ a ∈ args, (literal a).isSome = true) (there : v ∈ s.values) (i : Nat) :
    boundValue args v ≠ .parameter i := by
  cases v with
  | parameter j =>
    have small : j < args.length := Nat.lt_of_lt_of_le (index_lt_count there) enough
    have made := literals args[j] (List.getElem_mem small)
    rw [boundValue_parameter,List.getElem?_eq_getElem small,Option.getD_some]
    intro same
    rw [same] at made
    cases made
  | _ => nofun

/-- Arguments are values and never SQL. For tokens that have their parameters only where values are read, the
statement with its arguments bound is the one of the tokens with the literals of the arguments. -/
theorem bindStatement_parse {tokens body : List Token} (lexed : Lexer.Lexed tokens body) {s : Parsed}
    (placed : parseTokens strict tokens = .ok s) (args : List Value) (literals : ∀ a ∈ args, (literal a).isSome = true)
    (count : args.length = countStatementParameters s) :
    parseTokens plain tokens = .ok s ∧ Lexer.countParameters tokens = args.length ∧
      ∃ s', bindStatement args s = some s' ∧ parseTokens plain (replaceParameters tokens args) = .ok s' ∧
        ∀ i, Value.parameter i ∉ s'.values := by
  have enough := count.ge
  refine ⟨strict_plain lexed placed,(count_parameters lexed placed).trans count.symm,s.mapValues (boundValue args),
    bindStatement_eq fun v there => bindValue_eq enough there,
    (parseTokens_strict (replaced_matched literals lexed.numbered_tokens) lexed placed).1,?_⟩
  intro i there
  rw [Parsed.values_mapValues] at there
  obtain ⟨v,member,same⟩ := List.mem_map.mp there
  exact boundValue_ne enough literals member i same

theorem bindStatement_parse_update :
    ∃ tokens, Lexer.lex (ascii "UPDATE t SET a = ? WHERE b = ?") = .ok tokens ∧
      ∃ s s', parseTokens plain tokens = .ok s ∧ bindStatement [.string (ascii "' OR NULL"),.int (-1)] s = some s' ∧
        parseTokens plain (replaceParameters tokens [.string (ascii "' OR NULL"),.int (-1)]) = .ok s' := by
  have read : Lexer.lex (ascii "UPDATE t SET a = ? WHERE b = ?") =
      .ok ((Lexer.lex (ascii "UPDATE t SET a = ? WHERE b = ?")).toOption.getD []) := by decide +kernel
  obtain ⟨body,lexed⟩ := Lexer.lex_lexed read
  have placed : parseTokens strict ((Lexer.lex (ascii "UPDATE t SET a = ? WHERE b = ?")).toOption.getD []) =
      .ok (.plain (.update ⟨ascii "t",(∅ : GoMap Value).insert (ascii "a") (.parameter 0),
        some (.test (ascii "b") .equal (.parameter 1))⟩)) := by decide +kernel
  obtain ⟨parsed,_,s',bound,same,_⟩ :=
    bindStatement_parse lexed placed [.string (ascii "' OR NULL"),.int (-1)] (by decide) (by decide +kernel)
  exact ⟨_,read,_,s',parsed,bound,same⟩

end GoDb.Parser
