import SqlOptimizer.Deparse.DeparseRaToSql
import SqlOptimizer.Logic.JoinText
import SqlOptimizer.Parse.ParseSqlToRa

/-!
The FROM text that `deparse_ra_node` prints, read by the grammar of SQL. The printer writes no
parentheses around joins.
-/

set_option autoImplicit false
set_option relaxedAutoImplicit false

namespace SqlOptimizer.Deparse.FromText

open Algebra.RelationalAlgebra
open DeparseRaToSql
open Logic.JoinText
open Parse.PgQuery (PgNode)
open Parse.ParseSqlToRa (parse)

/-- A relation or derived table, and the column names that a text gives it in addition. -/
structure FromItem where
  node : RaNode
  columns : List String := []

/-- What the printer writes after a join: its alias and its column names. -/
inductive JoinName where
  | alias (name : String)
  | columns (names : List String)

/-- What SQL takes `as x` and a column list for after an item that has none. -/
def renameItem : JoinName → FromItem → Option FromItem
  | .alias x, ⟨.relation i name aliasName, []⟩ =>
      if aliasName = "" then some ⟨.relation i name x, []⟩ else none
  | .columns cs, ⟨.relation i name aliasName, []⟩ =>
      if aliasName ≠ "" then some ⟨.relation i name aliasName, cs⟩ else none
  | .columns cs, ⟨.projection i pr c, []⟩ =>
      if pr.subqueryColumns = [] then some ⟨.projection i pr c, cs⟩ else none
  | _, _ => none

/-- The ON condition of a join. -/
def onCondition (join : Join) : Option Expr :=
  if join.predicate.isPresent then some join.predicate else none

/-- The alias and the column names of a join. -/
def joinNames (join : Join) : List JoinName :=
  (if join.aliasName ≠ "" then [.alias join.aliasName] else []) ++
    if join.columns.isEmpty then [] else [.columns join.columns]

/-- The FROM clause that a tree stands for; Selections and WHERE subqueries are no part of it. -/
def sourceOf : RaNode → Source FromItem JoinType Expr JoinName
  | .hole => .item ⟨.hole, []⟩
  | .leaf i op => .item ⟨.leaf i op, []⟩
  | .unary i (.projection pr) c => .item ⟨.projection i pr c, []⟩
  | .unary _ _ c => sourceOf c
  | .join _ join l r =>
      if join.marker ≠ 0 then sourceOf l
      else if join.type = .crossProduct then
        .cross (sourceOf l) (sourceOf r) (onCondition join) (joinNames join)
      else .join join.type (sourceOf l) (sourceOf r) (onCondition join) (joinNames join)

/-- Relations, derived tables, cross products, inner and left joins; Selections and the joins of
WHERE subqueries may lie between. -/
def IsFromTree : RaNode → Prop
  | .leaf _ (.relation _ _) => True
  | .unary _ (.projection _) _ => True
  | .unary _ (.selection _) c => IsFromTree c
  | .join _ join l r =>
      if join.marker ≠ 0 then IsFromTree l
      else (join.type = .crossProduct ∨ join.type = .inner ∨ join.type = .left) ∧
        IsFromTree l ∧ IsFromTree r
  | _ => False

section

variable (subs : Nat → Option Subquery)

/-- The text that the printer writes for a token. -/
def tokenText : Token FromItem JoinType Expr JoinName → Option String
  | .item a => (deparseRaNode subs a.node 1 {}).map (·.fromText)
  | .comma => some ", "
  | .join type => some (joinName type)
  | .on p => (deparsePredicate subs p).map fun ts => " on " ++ render ts
  | .name (.alias x) => some (" as " ++ x)
  | .name (.columns cs) => some (columnList cs)

/-- The tree reads the same without parentheses: a cross product has no condition and no names;
an inner or left join has a condition and no names, and neither of its inputs is printed as a
comma list. -/
def KeepsShape : RaNode → Prop
  | .unary _ (.projection _) _ => True
  | .unary _ _ c => KeepsShape c
  | .join _ join l r =>
      if join.marker ≠ 0 then KeepsShape l
      else if join.type = .crossProduct then
        (join.predicate.isPresent = false ∧ join.aliasName = "" ∧ join.columns = []) ∧
          KeepsShape l ∧ KeepsShape r
      else
        (join.predicate.isPresent = true ∧ join.aliasName = "" ∧ join.columns = []) ∧
          (isCommaList l = false ∧ isCommaList r = false) ∧ KeepsShape l ∧ KeepsShape r
  | _ => True
where
  /-- The tree is printed with a comma outside of its derived tables. -/
  isCommaList : RaNode → Bool
  | .unary _ (.projection _) _ => false
  | .unary _ _ c => isCommaList c
  | .join _ join l _ => if join.marker ≠ 0 then isCommaList l else join.type = .crossProduct
  | _ => false

private theorem isCross_sourceOf (t : RaNode) :
    (sourceOf t).isCross = KeepsShape.isCommaList t := by
  induction t with
  | hole => rfl
  | leaf i op => rfl
  | unary i op c ih =>
    cases op with
    | projection pr => rfl
    | _ => exact ih
  | join i join l r ihl ihr =>
    rw [sourceOf, KeepsShape.isCommaList]
    by_cases hmarker : join.marker ≠ 0
    · rw [if_pos hmarker, if_pos hmarker]
      exact ihl
    · rw [if_neg hmarker, if_neg hmarker]
      by_cases htype : join.type = .crossProduct
      · rw [if_pos htype, decide_eq_true htype]
        rfl
      · rw [if_neg htype, decide_eq_false htype]
        rfl

private theorem joinNames_eq_nil {join : Join} :
    joinNames join = [] ↔ join.aliasName = "" ∧ join.columns = [] := by
  rw [joinNames, List.append_eq_nil_iff]
  by_cases ha : join.aliasName = "" <;> cases join.columns <;> simp [ha]

private theorem isSome_onCondition (join : Join) :
    (onCondition join).isSome = join.predicate.isPresent := by
  rw [onCondition]
  cases join.predicate.isPresent <;> rfl

/-- The condition on trees is that of the reader. -/
theorem readable_sourceOf (t : RaNode) : (sourceOf t).Readable ↔ KeepsShape t := by
  induction t with
  | hole => exact Iff.rfl
  | leaf i op => exact Iff.rfl
  | unary i op c ih =>
    cases op with
    | projection pr => exact Iff.rfl
    | _ => exact ih
  | join i join l r ihl ihr =>
    have hon := isSome_onCondition join
    rw [sourceOf, KeepsShape]
    by_cases hmarker : join.marker ≠ 0
    · rw [if_pos hmarker, if_pos hmarker]
      exact ihl
    · rw [if_neg hmarker, if_neg hmarker]
      by_cases htype : join.type = .crossProduct
      · rw [if_pos htype, if_pos htype, Source.Readable, ihl, ihr, Source.isBare, Bool.and_eq_true,
          List.isEmpty_iff, joinNames_eq_nil, ← Option.not_isSome, hon, Bool.not_eq_true']
      · rw [if_neg htype, if_neg htype, Source.Readable, ihl, ihr, hon, joinNames_eq_nil,
          isCross_sourceOf, isCross_sourceOf]

private theorem mapM_append_eq_some {ts us : List (Token FromItem JoinType Expr JoinName)}
    {as bs : List String} (ha : ts.mapM (tokenText subs) = some as)
    (hb : us.mapM (tokenText subs) = some bs) :
    (ts ++ us).mapM (tokenText subs) = some (as ++ bs) := by
  rw [List.mapM_append, ha, hb]
  rfl

private theorem text_item {t : RaNode} {s : String} {c : Clauses}
    (h : (deparseRaNode subs t 1 {}).map (·.fromText) = some s) :
    ∃ strs, [Token.item ⟨t, []⟩].mapM (tokenText subs) = some strs ∧
      c.fromText ++ s = c.fromText ++ String.join strs :=
  ⟨[s], by simp [tokenText, h], by simp [String.join_cons]⟩

/-- The texts of the tokens after the inputs of a join. -/
private theorem text_joinSuffix {join : Join} {suffix : String}
    (h : joinSuffix subs join = some suffix) :
    ∃ strs, (((onCondition join).toList.map Token.on ++ (joinNames join).map Token.name).mapM
      (tokenText subs)) = some strs ∧ suffix = String.join strs := by
  obtain ⟨on, hon, rfl⟩ := Option.map_eq_some_iff.mp h
  have hcondition : ∃ strs, ((onCondition join).toList.map Token.on).mapM (tokenText subs) =
      some strs ∧ on = String.join strs := by
    rw [onCondition]
    split at hon
    · next hp =>
      obtain ⟨ts, hts, rfl⟩ := Option.map_eq_some_iff.mp hon
      exact ⟨[" on " ++ render ts], by simp [hp, tokenText, hts], by simp [String.join_cons]⟩
    · next hp =>
      cases hon
      exact ⟨[], by simp [hp], rfl⟩
  have halias : ∃ strs, ((if join.aliasName ≠ "" then [JoinName.alias join.aliasName] else []).map
      Token.name).mapM (tokenText subs) = some strs ∧
      (if join.aliasName ≠ "" then " as " ++ join.aliasName else "") = String.join strs := by
    split
    · exact ⟨[" as " ++ join.aliasName], rfl, by simp [String.join_cons]⟩
    · exact ⟨[], rfl, rfl⟩
  have hcolumns : ∃ strs, ((if join.columns.isEmpty then [] else
      [JoinName.columns join.columns]).map Token.name).mapM (tokenText subs) = some strs ∧
      columnList join.columns = String.join strs := by
    split
    · next hcs => exact ⟨[], rfl, by simp [columnList, hcs]⟩
    · exact ⟨[columnList join.columns], rfl, by simp [String.join_cons]⟩
  obtain ⟨os, hos, rfl⟩ := hcondition
  obtain ⟨as, has, ha⟩ := halias
  obtain ⟨cs, hcs, hc⟩ := hcolumns
  refine ⟨os ++ (as ++ cs), ?_, ?_⟩
  · rw [joinNames, List.map_append]
    exact mapM_append_eq_some subs hos (mapM_append_eq_some subs has hcs)
  · rw [ha, hc, String.join_append, String.join_append, String.append_assoc]

/-- The printer appends the texts of the tokens. -/
theorem fromText_deparseRaNode {t : RaNode} (ht : IsFromTree t) {layer : Nat} {c c' : Clauses}
    (h : deparseRaNode subs t (layer + 1) c = some c') :
    ∃ strs, (sourceOf t).tokens.mapM (tokenText subs) = some strs ∧
      c'.fromText = c.fromText ++ String.join strs := by
  induction t generalizing layer c c' with
  | hole => exact ht.elim
  | leaf i op =>
    cases op with
    | relation name a =>
      cases h
      exact text_item subs (c := c) (by simp [deparseRaNode])
    | values vs a column => exact ht.elim
    | dummy => exact ht.elim
  | unary i op child ih =>
    cases op with
    | projection pr =>
      simp only [deparseRaNode, Option.bind_eq_some_iff, Option.map_eq_some_iff] at h
      obtain ⟨select, hselect, inner, hinner, rfl⟩ := h
      obtain ⟨strs, hstrs, htext⟩ := text_item subs (t := .projection i pr child) (c := c)
        (s := "(" ++ assemble inner ++ ") as " ++ pr.subqueryAlias ++
          columnList pr.subqueryColumns) (by simp [deparseRaNode, hselect, hinner])
      refine ⟨strs, hstrs, ?_⟩
      rw [← htext]
      simp only [String.append_assoc]
    | selection p =>
      simp only [deparseRaNode, Option.bind_eq_some_iff] at h
      obtain ⟨ts, -, h⟩ := h
      obtain ⟨strs, hstrs, htext⟩ := ih ht h
      exact ⟨strs, hstrs, htext⟩
    | _ => exact ht.elim
  | join i join l r ihl ihr =>
    rw [deparseRaNode] at h
    split at h
    · cases h
    · rw [IsFromTree] at ht
      rw [sourceOf]
      by_cases hmarker : join.marker ≠ 0
      · rw [if_pos hmarker] at ht ⊢
        rw [if_pos (Nat.pos_of_ne_zero hmarker)] at h
        exact ihl ht h
      · rw [if_neg hmarker] at ht ⊢
        rw [if_neg (by omega)] at h
        obtain ⟨htype, hl, hr⟩ := ht
        by_cases hcross : join.type = .crossProduct
        · rw [if_pos hcross]
          simp only [hcross, Option.bind_eq_some_iff] at h
          obtain ⟨c₁, h₁, h⟩ := h
          obtain ⟨ls, hls, hltext⟩ := ihl hl h₁
          obtain ⟨rs, hrs, hrtext⟩ := ihr hr h
          have hcomma : [Token.comma].mapM (tokenText subs) = some [", "] := rfl
          refine ⟨ls ++ ([", "] ++ rs),
            mapM_append_eq_some subs hls (mapM_append_eq_some subs hcomma hrs), ?_⟩
          rw [hrtext, hltext]
          simp [String.join_append, String.join_cons, String.append_assoc]
        · rw [if_neg hcross]
          have hprinted : ∃ c₁ c₂ suffix, deparseRaNode subs l (layer + 1) c = some c₁ ∧
              deparseRaNode subs r (layer + 1)
                { c₁ with fromText := c₁.fromText ++ joinName join.type } = some c₂ ∧
              joinSuffix subs join = some suffix ∧ c'.fromText = c₂.fromText ++ suffix := by
            rcases htype with htype | htype | htype
            · exact absurd htype hcross
            all_goals
              simp only [htype, Option.bind_eq_some_iff, Option.map_eq_some_iff] at h ⊢
              obtain ⟨c₁, h₁, c₂, h₂, suffix, hsuffix, rfl⟩ := h
              exact ⟨c₁, c₂, suffix, h₁, h₂, hsuffix, rfl⟩
          obtain ⟨c₁, c₂, suffix, h₁, h₂, hsuffix, htext⟩ := hprinted
          obtain ⟨ls, hls, hltext⟩ := ihl hl h₁
          obtain ⟨rs, hrs, hrtext⟩ := ihr hr h₂
          obtain ⟨ss, hss, rfl⟩ := text_joinSuffix subs hsuffix
          have hjoin : [Token.join join.type].mapM (tokenText subs) =
            some [joinName join.type] := rfl
          refine ⟨ls ++ ([joinName join.type] ++ (rs ++ ss)), mapM_append_eq_some subs hls
            (mapM_append_eq_some subs hjoin (mapM_append_eq_some subs hrs hss)), ?_⟩
          rw [htext, hrtext, hltext]
          simp [String.join_append, String.join_cons, String.append_assoc]

end

/-- The FROM text of a tree, read by the grammar of SQL, denotes the tree if and only if it keeps
its shape without parentheses. -/
theorem fromText_denotes_iff {subs : Nat → Option Subquery} {t : RaNode} (ht : IsFromTree t)
    {layer : Nat} {c : Clauses} (h : deparseRaNode subs t (layer + 1) {} = some c) :
    (∃ strs, (sourceOf t).tokens.mapM (tokenText subs) = some strs ∧
      c.fromText = String.join strs) ∧
    (read renameItem (sourceOf t).tokens = some (sourceOf t).denotes ↔ KeepsShape t) := by
  obtain ⟨strs, hstrs, htext⟩ := fromText_deparseRaNode subs ht h
  refine ⟨⟨strs, hstrs, ?_⟩, (read_tokens_iff _).trans (readable_sourceOf t)⟩
  rw [htext]
  exact String.empty_append

/-- `students s left join professors p on s.id=p.id`, under a name. -/
def leftJoin (aliasName : String) (columns : List String) : RaNode :=
  .join 1
    { type := .left
      predicate := .predicate (.attribute "id" "s") (.attribute "id" "p") "="
      aliasName
      columns }
    (.relation 2 "students" "s") (.relation 3 "professors" "p")

/-- `students s left join professors p on s.id=p.id, exams`. -/
theorem leftJoin_in_commaList :
    let t := RaNode.join 4 { type := .crossProduct } (leftJoin "" []) (.relation 5 "exams" "")
    read renameItem (sourceOf t).tokens = some (sourceOf t).denotes :=
  (@fromText_denotes_iff (fun _ => none) _ (by simp [IsFromTree, leftJoin]) 0 _ rfl).2.mpr (by simp [KeepsShape, leftJoin]; decide)

/-- `select * from (students s left outer join professors p on s.id=p.id) as s2(col1, col2)`. -/
def aliasedJoin : PgNode :=
  .selectStmt false [.resTarget "" (.columnRef ["*"])]
    [.joinExpr .left (.rangeVar "students" (some ⟨"s", []⟩))
      (.rangeVar "professors" (some ⟨"p", []⟩))
      (.aExpr .op "=" (.columnRef ["s", "id"]) (.columnRef ["p", "id"]))
      (some ⟨"s2", ["col1", "col2"]⟩)] .nullptr [] .nullptr [] []

/-- The printed FROM clause gives the name to the condition. -/
theorem aliasedJoin_not_read :
    (∃ pr s, parse aliasedJoin = some (.projection 0 pr (leftJoin "s2" ["col1", "col2"]), s)) ∧
      (deparseRaNode (fun _ => none) (leftJoin "s2" ["col1", "col2"]) 1 {}).map (·.fromText) =
        some "students s left join professors p on s.id=p.id as s2(col1,col2)" ∧
      read renameItem (sourceOf (leftJoin "s2" ["col1", "col2"])).tokens = none :=
  ⟨⟨_, _, rfl⟩, by decide, rfl⟩

end SqlOptimizer.Deparse.FromText
