import GoDb.DecimalText
import GoDb.Foundation.Coupling
import GoDb.LexerMeaning
import GoDb.ParserReading
import GoDb.Prepared

/-! A prepared statement with its arguments is the statement that has their literals in
place of the parameters. The strict parser on the tokens with parameters and the parser of
the source on the tokens with literals run side by side: they stand at the same position,
and what they have read differs by the values that are bound. -/
namespace GoDb
open Foundation Outcome

section values

variable (f : Value → Value)

def Condition.mapValues : Condition → Condition
  | .test column operator value => .test column operator (f value)
  | .and left right => .and left.mapValues right.mapValues
  | .or left right => .or left.mapValues right.mapValues

def Statement.mapValues : Statement → Statement
  | .insert q => .insert {q with values := q.values.map f}
  | .update q => .update {q with set := q.set.mapValues f,condition := q.condition.map (Condition.mapValues f)}
  | .delete q => .delete {q with condition := q.condition.map (Condition.mapValues f)}
  | .select q => .select {q with condition := q.condition.map (Condition.mapValues f)}
  | s => s

def Parsed.mapValues : Parsed → Parsed
  | .plain s => .plain (s.mapValues f)
  | .explain s => .explain (s.mapValues f)
  | s => s

theorem Condition.values_mapValues (c : Condition) : (c.mapValues f).values = c.values.map f := by
  induction c with
  | test => rfl
  | and left right leftSame rightSame =>
    rw [Condition.values,List.map_append,← leftSame,← rightSame]
    rfl
  | or left right leftSame rightSame =>
    rw [Condition.values,List.map_append,← leftSame,← rightSame]
    rfl

theorem whereValues_map (w : Option Condition) :
    whereValues (w.map (Condition.mapValues f)) = (whereValues w).map f := by
  cases w with
  | none => rfl
  | some c => exact c.values_mapValues f

theorem Statement.values_mapValues (s : Statement) : (s.mapValues f).values = s.values.map f := by
  cases s with
  | insert q => rfl
  | update q =>
    change (q.set.entries.map fun e => (e.1,f e.2)).map Prod.snd ++ whereValues (q.condition.map _) = _
    rw [whereValues_map,List.map_map,Statement.values,List.map_append,List.map_map]
    rfl
  | delete q => exact whereValues_map f q.condition
  | select q => exact whereValues_map f q.condition
  | _ => rfl

theorem Parsed.values_mapValues (s : Parsed) : (s.mapValues f).values = s.values.map f := by
  cases s with
  | plain s => exact s.values_mapValues f
  | explain s => exact s.values_mapValues f
  | _ => rfl

theorem Condition.mapValues_id (c : Condition) : c.mapValues id = c := by
  induction c with
  | test => rfl
  | and left right leftSame rightSame => rw [Condition.mapValues,leftSame,rightSame]
  | or left right leftSame rightSame => rw [Condition.mapValues,leftSame,rightSame]

theorem Statement.mapValues_id (s : Statement) : s.mapValues id = s := by
  have tree : Condition.mapValues id = id := funext Condition.mapValues_id
  have set (values : GoMap Value) : values.mapValues id = values := by
    ext key v
    rw [SortedMap.lookup_mapValues,Option.map_id_fun,id]
  cases s with
  | insert q => rw [Statement.mapValues,List.map_id_fun,id]
  | update q => rw [Statement.mapValues,tree,set,Option.map_id_fun,id]
  | delete q => rw [Statement.mapValues,tree,Option.map_id_fun,id]
  | select q => rw [Statement.mapValues,tree,Option.map_id_fun,id]
  | _ => rfl

theorem Parsed.mapValues_id (s : Parsed) : s.mapValues id = s := by
  cases s with
  | plain s => rw [Parsed.mapValues,s.mapValues_id]
  | explain s => rw [Parsed.mapValues,s.mapValues_id]
  | _ => rfl

end values

section binding

variable {args : List Value} {f : Value → Value}

theorem bindCondition_eq {c : Condition} (bound : ∀ v ∈ c.values, bindValue args v = some (f v)) :
    bindCondition args c = some (c.mapValues f) := by
  induction c with
  | test column operator value =>
    rw [bindCondition,bound value List.mem_cons_self]
    rfl
  | and left right leftBound rightBound =>
    rw [bindCondition,leftBound fun v there => bound v (List.mem_append_left _ there),
      rightBound fun v there => bound v (List.mem_append_right _ there)]
    rfl
  | or left right leftBound rightBound =>
    rw [bindCondition,leftBound fun v there => bound v (List.mem_append_left _ there),
      rightBound fun v there => bound v (List.mem_append_right _ there)]
    rfl

theorem bindWhere_eq {w : Option Condition} (bound : ∀ v ∈ whereValues w, bindValue args v = some (f v)) :
    bindWhere args w = some (w.map (Condition.mapValues f)) := by
  cases w with
  | none => rfl
  | some c =>
    rw [bindWhere,bindCondition_eq bound]
    rfl

theorem mapM_eq_map {α β : Type} {g : α → Option β} {h : α → β} {items : List α}
    (each : ∀ a ∈ items, g a = some (h a)) : items.mapM g = some (items.map h) := by
  induction items with
  | nil => rfl
  | cons a items ih =>
    rw [List.mapM_cons,each a List.mem_cons_self,ih fun b there => each b (List.mem_cons_of_mem a there)]
    rfl

theorem bindSet_eq {set : GoMap Value} (bound : ∀ v ∈ set.entries.map Prod.snd, bindValue args v = some (f v)) :
    bindSet args set = some (set.mapValues f) := by
  have entries : (set.entries.mapM fun e => do
      let v ← bindValue args e.2
      pure (e.1,v)) = some (set.mapValues f).entries := by
    apply mapM_eq_map
    intro e there
    rw [bound e.2 (List.mem_map_of_mem there)]
    rfl
  rw [bindSet,entries]
  exact congrArg some (SortedMap.insertAll_entries _)

theorem Statement.bind_eq {s : Statement} (bound : ∀ v ∈ s.values, bindValue args v = some (f v)) :
    s.bind args = some (s.mapValues f) := by
  cases s with
  | insert q =>
    have values : q.values.mapM (bindValue args) = some (q.values.map f) := mapM_eq_map bound
    rw [Statement.bind,values]
    rfl
  | update q =>
    rw [Statement.bind,bindSet_eq fun v there => bound v (List.mem_append_left _ there),
      bindWhere_eq fun v there => bound v (List.mem_append_right _ there)]
    rfl
  | delete q =>
    rw [Statement.bind,bindWhere_eq bound]
    rfl
  | select q =>
    rw [Statement.bind,bindWhere_eq bound]
    rfl
  | _ => rfl

theorem bindStatement_eq {s : Parsed} (bound : ∀ v ∈ s.values, bindValue args v = some (f v)) :
    bindStatement args s = some (s.mapValues f) := by
  cases s with
  | plain s =>
    rw [bindStatement,s.bind_eq bound]
    rfl
  | explain s =>
    rw [bindStatement,s.bind_eq bound]
    rfl
  | _ => rfl

end binding

theorem foldl_largerIndex (values : List Value) (max : Int) :
    max ≤ values.foldl largerIndex max ∧
      (∀ i, Value.parameter i ∈ values → (i : Int) ≤ values.foldl largerIndex max) ∧
      ∀ bound : Int, max ≤ bound → (∀ i, Value.parameter i ∈ values → (i : Int) ≤ bound) →
        values.foldl largerIndex max ≤ bound := by
  induction values generalizing max with
  | nil => exact ⟨Int.le_refl max,nofun,fun _ small _ => small⟩
  | cons v values ih =>
    obtain ⟨more,above,least⟩ := ih (largerIndex max v)
    have step : max ≤ largerIndex max v ∧ ∀ i, v = .parameter i → (i : Int) ≤ largerIndex max v := by
      unfold largerIndex
      split
      · rename_i index
        refine ⟨?_,fun i same => ?_⟩
        · split_ifs with less
          · exact Int.le_of_lt less
          · exact Int.le_refl max
        · obtain rfl := Value.parameter.inj same
          split_ifs with less
          · exact Int.le_refl _
          · exact Int.not_lt.mp less
      · rename_i other
        exact ⟨Int.le_refl max,fun i same => absurd same (other i)⟩
    refine ⟨step.1.trans more,fun i there => ?_,fun bound small all => ?_⟩
    · rcases List.mem_cons.mp there with same | there
      · exact (step.2 i same.symm).trans more
      · exact above i there
    · apply least bound _ fun i there => all i (List.mem_cons_of_mem v there)
      unfold largerIndex
      split
      · split_ifs
        · exact all _ List.mem_cons_self
        · exact small
      · exact small

theorem index_lt_count {s : Parsed} {i : Nat} (there : Value.parameter i ∈ s.values) :
    i < countStatementParameters s := by
  have above := (foldl_largerIndex s.values (-1)).2.1 i there
  unfold countStatementParameters
  omega

theorem count_le {s : Parsed} {n : Nat} (all : ∀ i, Value.parameter i ∈ s.values → i < n) :
    countStatementParameters s ≤ n := by
  have least := (foldl_largerIndex s.values (-1)).2.2 (n - 1) (by omega) fun i there => by
    have small := all i there
    omega
  unfold countStatementParameters
  omega

end GoDb
