import SqlOptimizer.Semantics.FreeReads
import SqlOptimizer.Unnesting.FreeAttributes
import SqlOptimizer.Unnesting.SplitDepJoins

/-!
A dependent join changes places with the Selection below it, or goes to that input of the join
below it that uses attributes of D. Both give the same rows, as long as nothing in the right side
is called `d` and the join below has no alias.
-/

set_option autoImplicit false
set_option relaxedAutoImplicit false

namespace SqlOptimizer.Unnesting.PushedDepJoins

open Algebra.RelationalAlgebra
open Tree.Frames Tree.Nodes Tree.Walks
open Logic.DependentJoins Logic.NestedLoops Logic.Triples
open Semantics.Evaluation Semantics.References Semantics.FreeReads
open Semantics.Equivalence (renameTuple_eq_self)
open Tree.OuterJoins (equality oneRow)
open Objects Attributes FreeAttributes LexicalScopes PushDownDepJoin SplitDepJoins
open CollectorWalk (Houses getSubtreeAttributes_spec nodeItems_isSome_of_getSubtreeAttributes)
open Parse.MarkerJoins (Anchored)

section

variable {V : Type}

/-- The bindings of a row in any order. -/
def bindings (t : Tuple V) : Multiset (Binding V) := t.row

/-- The same rows with the same multiplicities, up to the order of their columns. -/
def SameRows (ts ts' : List (Tuple V)) : Prop := (ts.map bindings).Perm (ts'.map bindings)

theorem SameRows.of_eq {ts ts' : List (Tuple V)} (h : ts = ts') : SameRows ts ts' :=
  h ▸ .refl _

end

section

variable {V : Type} [DecidableEq V] {db : Database V} {I : Interpretation V} {env : Row V}
  {i j : Nat} {d a b c : RaNode} {p : Expr} {join : Join}

/-- The row does not give what the condition reads of D. -/
def ConditionApart (db : Database V) (d : RaNode) (p : Expr) (row : Row V) : Prop :=
  ∀ q ∈ references p, Offers (nullRow db d) q → ¬ Offers row q

/-- D is moved past a row that does not give what the condition reads of D. -/
private theorem satisfies_move {x y : Row V} {t : Tuple V} (ht : t ∈ evaluate db I d env)
    (h : ConditionApart db d p y) :
    satisfies I (t.row ++ env) p ⟨x ++ y, []⟩ = satisfies I env p ⟨x ++ (t.row ++ y), []⟩ := by
  have hagree : Agree (references p) (x ++ y ++ (t.row ++ env)) (x ++ (t.row ++ y) ++ env) := by
    intro q hq
    rw [List.append_assoc, List.append_assoc, List.append_assoc]
    refine lookup_append_congr (lookup_swap fun hy hd => ?_)
    exact h q hq ((offers_of_mem ht).mp hd) hy
  rw [satisfies, satisfies, truth_congr I hagree]

/-- A dependent join and a Selection change places. -/
theorem evaluate_dependent_selection (h : ConditionApart db d p (nullRow db c)) :
    evaluate db I (.join j dependent d (.selection i p c)) env =
      evaluate db I (.selection i p (.join j dependent d c)) env := by
  have hselection (t : RaNode) : evaluate db I (.selection i p t) env =
      (evaluate db I t env).filter (satisfies I env p) := by
    rw [evaluate]
  have hright : (fun t : Tuple V => evaluate db I (.selection i p c) (t.row ++ env)) =
      fun t => (evaluate db I c (t.row ++ env)).filter (satisfies I (t.row ++ env) p) := by
    funext t
    rw [evaluate]
  rw [hselection, evaluate_dependent, evaluate_dependent, hright]
  refine (filter_eachWith fun t ht u hu => ?_).symm
  have hu' : ConditionApart db d p u.row :=
    fun q hq hd hu'' => h q hq hd ((offers_of_mem hu).mp hu'')
  exact (@satisfies_move _ _ _ _ _ _ _ [] _ _ ht hu').symm

omit [DecidableEq V] in
private theorem map_renameTuple (halias : join.aliasName = "") (ts : List (Tuple V)) :
    ts.map (renameTuple join) = ts := by
  conv_rhs => rw [← List.map_id ts]
  exact List.map_congr_left fun t _ => renameTuple_eq_self halias t

/-- The rows of a cross product or an inner join. -/
private theorem evaluate_innerJoin (halias : join.aliasName = "") (hmarker : join.marker = 0)
    (htype : join.type = .crossProduct ∨ join.type = .inner) (env : Row V) (l r : RaNode) :
    evaluate db I (.join i join l r) env =
      innerJoin beside (satisfies I env join.predicate) (evaluate db I l env)
        (evaluate db I r env) := by
  rw [evaluate, map_renameTuple halias, if_neg (not_not.mpr hmarker)]
  rcases htype with htype | htype
  · rw [htype]
  · rw [htype]

private theorem evaluate_leftJoin (halias : join.aliasName = "") (hmarker : join.marker = 0)
    (htype : join.type = .left) (env : Row V) (l r : RaNode) :
    evaluate db I (.join i join l r) env =
      leftJoin beside (beside · ⟨nullRow db r, []⟩) (satisfies I env join.predicate)
        (evaluate db I l env) (evaluate db I r env) := by
  rw [evaluate, map_renameTuple halias, if_neg (not_not.mpr hmarker), htype]

/-- The input reads nothing of D. -/
def Unread (db : Database V) (d t : RaNode) : Prop :=
  ∀ q, Offers (nullRow db d) q → ¬ Reads db t q

/-- An input that reads nothing of D is the same for every row of D. -/
private theorem evaluate_unread {t : Tuple V} (ht : t ∈ evaluate db I d env) (hb : CombinesRows b)
    (hunread : Unread db d b) : evaluate db I b (t.row ++ env) = evaluate db I b env := by
  refine evaluate_congr hb fun q hq => lookup_append_left fun hoff => ?_
  exact hunread q ((offers_of_mem ht).mp hoff) hq

private theorem satisfies_beside {t u : Tuple V} {y : Row V}
    (ht : t ∈ evaluate db I d env) (hy : ∀ q, Offers y q ↔ Offers (nullRow db b) q)
    (hu : u ∈ evaluate db I a (t.row ++ env))
    (h : ConditionApart db d join.predicate (nullRow db a ++ nullRow db b)) :
    satisfies I (t.row ++ env) join.predicate (beside u ⟨y, []⟩) =
      satisfies I env join.predicate (beside (beside t u) ⟨y, []⟩) := by
  have hapart : ConditionApart db d join.predicate (u.row ++ y) := by
    intro q hq hd hoff
    refine h q hq hd ?_
    rw [offers_append] at hoff ⊢
    exact hoff.imp (offers_of_mem hu).mp (hy q).mp
  have hmove := @satisfies_move _ _ _ I _ _ _ [] _ _ ht hapart
  rw [List.nil_append, List.nil_append, ← List.append_assoc] at hmove
  exact hmove

/-- A dependent join goes to the left input of a join when the right input reads nothing of D. -/
theorem evaluate_dependent_left (halias : join.aliasName = "") (hmarker : join.marker = 0)
    (htype : join.type = .crossProduct ∨ join.type = .inner ∨ join.type = .left)
    (hb : CombinesRows b) (hunread : Unread db d b)
    (h : ConditionApart db d join.predicate (nullRow db a ++ nullRow db b)) :
    evaluate db I (.join j dependent d (.join i join a b)) env =
      evaluate db I (.join i join (.join j dependent d a) b) env := by
  have hassoc (t u v : Tuple V) : beside t (beside u v) = beside (beside t u) v := by
    simp only [beside, List.append_assoc]
  have hcondition : ∀ t ∈ evaluate db I d env, ∀ u ∈ evaluate db I a (t.row ++ env),
      ∀ v ∈ evaluate db I b env, satisfies I (t.row ++ env) join.predicate (beside u v) =
        satisfies I env join.predicate (beside (beside t u) v) := by
    intro t ht u hu v hv
    exact satisfies_beside ht (fun q => offers_of_mem hv) hu h
  have hinner : eachWith beside (evaluate db I d env) (fun t =>
        innerJoin beside (satisfies I (t.row ++ env) join.predicate)
          (evaluate db I a (t.row ++ env)) (evaluate db I b (t.row ++ env))) =
      innerJoin beside (satisfies I env join.predicate)
        (eachWith beside (evaluate db I d env) fun t => evaluate db I a (t.row ++ env))
        (evaluate db I b env) := by
    rw [← eachWith_innerJoin (fun t _ u _ v => hassoc t u v) hcondition]
    refine List.flatMap_congr fun t ht => ?_
    simp only [evaluate_unread ht hb hunread]
  have hleft : eachWith beside (evaluate db I d env) (fun t =>
        leftJoin beside (beside · ⟨nullRow db b, []⟩) (satisfies I (t.row ++ env) join.predicate)
          (evaluate db I a (t.row ++ env)) (evaluate db I b (t.row ++ env))) =
      leftJoin beside (beside · ⟨nullRow db b, []⟩) (satisfies I env join.predicate)
        (eachWith beside (evaluate db I d env) fun t => evaluate db I a (t.row ++ env))
        (evaluate db I b env) := by
    rw [← eachWith_leftJoin (fun t _ u _ v => hassoc t u v) hcondition
      fun t _ u _ => hassoc t u ⟨nullRow db b, []⟩]
    refine List.flatMap_congr fun t ht => ?_
    simp only [evaluate_unread ht hb hunread]
  have hinnerType (htype : join.type = .crossProduct ∨ join.type = .inner) :
      evaluate db I (.join j dependent d (.join i join a b)) env =
        evaluate db I (.join i join (.join j dependent d a) b) env := by
    simp only [evaluate_dependent, evaluate_innerJoin halias hmarker htype]
    exact hinner
  rcases htype with htype | htype | htype
  · exact hinnerType (.inl htype)
  · exact hinnerType (.inr htype)
  · simp only [evaluate_dependent, evaluate_leftJoin halias hmarker htype]
    exact hleft

/-- It goes to the right input of a cross product or an inner join when the left input reads
nothing of D; the columns come in another order. -/
theorem evaluate_dependent_right (halias : join.aliasName = "") (hmarker : join.marker = 0)
    (htype : join.type = .crossProduct ∨ join.type = .inner)
    (ha : CombinesRows a) (hunread : Unread db d a)
    (h : ConditionApart db d join.predicate (nullRow db b)) :
    SameRows (evaluate db I (.join j dependent d (.join i join a b)) env)
      (evaluate db I (.join i join a (.join j dependent d b)) env) := by
  have hview (t u v : Tuple V) : bindings (beside t (beside u v)) =
      bindings (beside u (beside t v)) := by
    simp only [bindings, beside, ← Multiset.coe_add]
    rw [← add_assoc, ← add_assoc, add_comm (t.row : Multiset (Binding V))]
  have hcondition : ∀ t ∈ evaluate db I d env, ∀ u ∈ evaluate db I a env,
      ∀ v ∈ evaluate db I b (t.row ++ env),
        satisfies I (t.row ++ env) join.predicate (beside u v) =
          satisfies I env join.predicate (beside u (beside t v)) := by
    intro t ht u _ v hv
    exact satisfies_move ht fun q hq hd hoff => h q hq hd ((offers_of_mem hv).mp hoff)
  have hinner : SameRows (eachWith beside (evaluate db I d env) fun t =>
        innerJoin beside (satisfies I (t.row ++ env) join.predicate)
          (evaluate db I a (t.row ++ env)) (evaluate db I b (t.row ++ env)))
      (innerJoin beside (satisfies I env join.predicate) (evaluate db I a env)
        (eachWith beside (evaluate db I d env) fun t => evaluate db I b (t.row ++ env))) := by
    refine List.Perm.trans (.of_eq (congrArg _ ?_))
      (eachWith_innerJoin_right (fun t _ u _ v _ => hview t u v) hcondition)
    refine List.flatMap_congr fun t ht => ?_
    simp only [evaluate_unread ht ha hunread]
  simp only [evaluate_dependent, evaluate_innerJoin halias hmarker htype]
  exact hinner

end

/-- The attributes of an expression are the columns that it reads. -/
private theorem mem_attributesIn (e : Expr) {x aliasName : String} :
    (x, aliasName) ∈ attributesIn e ↔ .column x aliasName ∈ references e := by
  have hall {es : List Expr} (ih : ∀ e ∈ es,
      ((x, aliasName) ∈ attributesIn e ↔ .column x aliasName ∈ references e)) :
      (x, aliasName) ∈ attributesInAll es ↔ .column x aliasName ∈ allReferences es := by
    rw [attributesInAll_eq_flatMap, allReferences_eq_flatMap, List.mem_flatMap, List.mem_flatMap]
    exact exists_congr fun e => and_congr_right fun he => ih e he
  induction e using Expr.ind with
  | nullptr => simp [attributesIn, references]
  | constant d t => simp [attributesIn, references]
  | attr n a => simp [attributesIn, references]
  | funcCall f args g d ih => exact hall ih
  | typeCast t m e ih => exact ih
  | selectExpression e r ih => exact ih
  | expression l r op ihl ihr => simp only [attributesIn, references, List.mem_append, ihl, ihr]
  | list args ih => exact hall ih
  | inList args ih => exact hall ih
  | caseExpr whens d ih ihd =>
    simp only [attributesIn, references, List.mem_append, hall ih, ihd]
  | caseWhen w t ihw iht => simp only [attributesIn, references, List.mem_append, ihw, iht]
  | boolPredicate op args ih => exact hall ih
  | predicate l r op ihl ihr => simp only [attributesIn, references, List.mem_append, ihl, ihr]
  | nullTest e t ih => exact ih
  | whereSubqueryMarker m t => simp [attributesIn, references]

private theorem mem_attributesInAll (es : List Expr) {x aliasName : String} :
    (x, aliasName) ∈ attributesInAll es ↔ .column x aliasName ∈ allReferences es := by
  rw [attributesInAll_eq_flatMap, allReferences_eq_flatMap, List.mem_flatMap, List.mem_flatMap]
  exact exists_congr fun e => and_congr_right fun _ => mem_attributesIn e

/-- An order-by list is no part of what a node reads. -/
private theorem mem_nodeExprs {n : RaNode} {q : Reference} (h : q ∈ allReferences (readExprs n)) :
    q ∈ allReferences (nodeExprs n) := by
  cases n with
  | hole => cases h
  | leaf i op => cases op <;> exact h
  | unary i op c =>
    cases op with
    | orderBy args directions => cases h
    | _ => exact h
  | join i join l r => exact h

private theorem mem_readExprs {n : RaNode} (hitems : (nodeItems n).isSome) {x aliasName : String}
    (h : (x, aliasName) ∈ visitedAttributes n) :
    .column x aliasName ∈ allReferences (readExprs n) := by
  have hall : .column x aliasName ∈ allReferences (nodeExprs n) := by
    rw [← mem_attributesInAll, ← (perm_attributesInAll hitems).mem_iff]
    exact List.mem_append_left _ h
  cases n with
  | hole => cases hall
  | leaf i op => cases op <;> exact hall
  | unary i op c =>
    cases op with
    | orderBy args directions => cases h
    | _ => exact hall
  | join i join l r => exact hall

section

variable {V : Type} (db : Database V)

/-- D with its columns, under the name `d`. -/
def IsD (d : RaNode) : Prop :=
  ∃ i pr c, d = .projection i pr c ∧ pr.subqueryAlias = "d" ∧ pr.args.isEmpty = false

/-- The attributes of D can be told from the others in a tree: nothing in it is called `d`, what it
reads of D is qualified with `d`, and this does not stand where the search does not look. -/
structure Recognised (d t : RaNode) : Prop where
  unnamed : ∀ n ∈ nodes t, ∀ x, ¬ Offers (nullRow db n) (.column x "d")
  relations : ∀ r ∈ getRelationsAliases t, r.1 ≠ "d" ∧ r.2 ≠ "d"
  qualified : ∀ q, Reads db t q → Offers (nullRow db d) q → ∃ x, q = .column x "d"
  looked : ∀ n ∈ nodes t, ∀ a ∈ hiddenAttributes n, a.2 ≠ "d"

/-- The search ends and comes to the nodes of the tree. -/
def Searched (root t : RaNode) : Prop :=
  ∃ os, getSubtreeAttributes root t = some os ∧ ∀ o, o ∈ os ↔ ∃ n ∈ nodes t, o ∈ visitedAt n

variable {db} {root d t : RaNode}

/-- It does in a tree in which the objects are there once and the markers have their joins. -/
theorem searched_of_houses (hhouse : Houses root t) (hanchored : Anchored t)
    (hitems : ∀ n ∈ nodes t, (nodeItems n).isSome) : Searched root t :=
  getSubtreeAttributes_spec hhouse hanchored hitems

private theorem IsD.offers (hd : IsD d) (x : String) : Offers (nullRow db d) (.column x "d") := by
  obtain ⟨i, pr, c, rfl, halias, -⟩ := hd
  refine ⟨_, List.mem_singleton_self _, ?_⟩
  rw [resolve, if_neg (by decide), if_pos halias]
  rfl

theorem IsD.isCorrelated (hd : IsD d) (ht : ∀ r ∈ getRelationsAliases t, r.1 ≠ "d" ∧ r.2 ≠ "d")
    (x aliasName : String) :
    isCorrelated d t x aliasName = true ↔ aliasName = "d" := by
  obtain ⟨i, pr, c, rfl, -, hargs⟩ := hd
  have hleft : leftRelationsAliases (.projection i pr c) = [("", "d")] := by
    rw [RaNode.projection, leftRelationsAliases, hargs]
    rfl
  have hcovered : isCovered [("", "d")] x aliasName = true ↔ aliasName = "d" := by
    by_cases h : aliasName = ""
    · simp [isCovered, h, Parse.Correlation.isTpchAttribute]
    · simp [isCovered, h]
  rw [Attributes.isCorrelated, hleft, Bool.and_eq_true, hcovered, Bool.not_eq_true']
  constructor
  · exact fun h => h.2
  · rintro rfl
    refine ⟨?_, rfl⟩
    rw [isCovered, List.any_eq_false]
    intro r hr
    have hne := ht r hr
    simp [Ne.symm hne.1, Ne.symm hne.2]

/-- The search decides whether a tree reads something of D. -/
theorem intersectCorrelatedAttributes_spec (hd : IsD d) (hrecognised : Recognised db d t)
    (hsearched : Searched root t) :
    ∃ os, intersectCorrelatedAttributes root d t = some os ∧
      (os.isEmpty = true ↔ Unread db d t) := by
  obtain ⟨os, hos, hmem⟩ := hsearched
  have hitems := nodeItems_isSome_of_getSubtreeAttributes hos
  refine ⟨_, congrArg _ hos, ?_⟩
  rw [List.isEmpty_iff, List.filter_eq_nil_iff]
  simp only [hd.isCorrelated hrecognised.relations, hmem]
  constructor
  · intro h q hoff hreads
    obtain ⟨x, rfl⟩ := hrecognised.qualified q hreads hoff
    obtain ⟨n, hn, hq⟩ := hreads.exists_node
    have hattribute : (x, "d") ∈ visitedAttributes n ++ hiddenAttributes n := by
      rw [(perm_attributesInAll (hitems n hn)).mem_iff, mem_attributesInAll]
      exact mem_nodeExprs hq
    rcases List.mem_append.mp hattribute with hvisited | hhidden
    · obtain ⟨o, ho, hrefOf⟩ := mem_visitedAttributes.mp hvisited
      exact h o ⟨n, hn, ho⟩ (congrArg Prod.snd hrefOf)
    · exact hrecognised.looked n hn _ hhidden rfl
  · rintro h o ⟨n, hn, ho⟩ halias
    have hvisited : (o.name, "d") ∈ visitedAttributes n :=
      mem_visitedAttributes.mpr ⟨o, ho, by rw [refOf, halias]⟩
    exact h _ (hd.offers o.name) (reads_of_node (fun n hn => hrecognised.unnamed n hn o.name) hn
      (mem_readExprs (hitems n hn) hvisited))

end

/-- The dependent join stands at one place of the main tree, below the projection of the subquery,
and the attributes below a join under it can be searched. -/
structure DependentPlace (s : State) (K : List Frame) (depJoin rightProjection : Nat)
    (d right : RaNode) : Prop where
  root : s.tree.root = plug K (.join depJoin dependent d right)
  outside : depJoin ∉ contextIds K
  top : ∃ it, find? rightProjection s.tree.root = some it ∧ (getNodeParent depJoin it).isSome = true
  searched : ∀ i join a b, right = .join i join a b →
    Searched s.tree.root a ∧ Searched s.tree.root b

section

variable {V : Type} (db : Database V)

/-- A Selection, or a join of which one input reads nothing of D: the right one of a left join. -/
def AtMostOneInput (d : RaNode) : RaNode → Prop
  | .selection _ _ c => c.isHole = false
  | .join _ join a b =>
      a.isHole = false ∧ b.isHole = false ∧ join.marker = 0 ∧ CombinesRows a ∧ CombinesRows b ∧
        match join.type with
        | .crossProduct | .inner => Unread db d a ∨ Unread db d b
        | .left => Unread db d b
        | _ => False
  | _ => False

/-- The names in the right side do not get in the way of D's. A condition that reads D does not find
the same name in the rows that D is moved past. A join has no alias, and D's attributes are
recognised in its right input, and in its left input when the right one reads D. -/
def NamesApart (d : RaNode) : RaNode → Prop
  | .selection _ p c => ConditionApart db d p (nullRow db c)
  | .join _ join a b =>
      join.aliasName = "" ∧ Recognised db d b ∧
        (Unread db d b → ConditionApart db d join.predicate (nullRow db a ++ nullRow db b)) ∧
        (¬ Unread db d b → Recognised db d a ∧ ConditionApart db d join.predicate (nullRow db b))
  | _ => True

variable {db} {s : State} {K : List Frame} {depJoin rightProjection : Nat} {d right t : RaNode}

/-- A call that puts another tree in the place of the dependent join. -/
private theorem outcome_replace (P : DependentPlace s K depJoin rightProjection d right)
    (hmove : depJoinMove s.tree.root depJoin dependent d right = some (.replace t)) :
    ∃ s', outcome (pushDownDepJoin depJoin rightProjection) s = (.ok none, s') ∧
      s'.tree.root = plug K t := by
  obtain ⟨it, hit, hparent⟩ := P.top
  have hfind : find? depJoin s.tree.root = some (.join depJoin dependent d right) := by
    rw [P.root, find?_plug P.outside, find?, if_pos rfl]
  refine ⟨{ s with tree := { s.tree with root := update depJoin (replaceJoin t) s.tree.root } },
    ?_, ?_⟩
  · unfold pushDownDepJoin
    rw [outcome_bind_eq_ok]
    refine ⟨s.tree.root, s, rfl, ?_⟩
    rw [outcome_bind_eq_ok]
    refine ⟨it, s, outcome_orCrash_eq_ok.mpr ⟨hit, rfl⟩, ?_⟩
    rw [outcome_bind_eq_ok]
    refine ⟨(), s, outcome_assert_eq_ok.mpr ⟨hparent, rfl⟩, ?_⟩
    rw [hfind]
    simp only
    rw [outcome_bind_eq_ok]
    exact ⟨_, s, outcome_orCrash_eq_ok.mpr ⟨hmove, rfl⟩, rfl⟩
  · change update depJoin (replaceJoin t) s.tree.root = plug K t
    rw [P.root, update_plug P.outside, update, if_pos rfl]
    rfl

variable [DecidableEq V]

/-- The tree that the dependent join and the node below it become has the same rows. -/
private theorem depJoinMove_sameRows (hd : IsD d)
    (hsearched : ∀ i join a b, right = .join i join a b →
      Searched s.tree.root a ∧ Searched s.tree.root b)
    (hright : AtMostOneInput db d right) (hnames : NamesApart db d right) :
    ∃ t, depJoinMove s.tree.root depJoin dependent d right = some (.replace t) ∧
      ∀ (I : Interpretation V) (env : Row V),
        SameRows (evaluate db I (.join depJoin dependent d right) env) (evaluate db I t env) := by
  cases right with
  | hole => exact hright.elim
  | leaf i op => exact hright.elim
  | unary i op c =>
    cases op with
    | selection p =>
      have hhole : ¬ c.isHole = true := by
        intro h
        exact Bool.false_ne_true (hright.symm.trans h)
      refine ⟨_, if_neg hhole, fun I env => .of_eq ?_⟩
      exact evaluate_dependent_selection hnames
    | _ => exact hright.elim
  | join i join a b =>
    obtain ⟨hholeA, hholeB, hmarker, hcombinesA, hcombinesB, hread⟩ := hright
    obtain ⟨halias, hrecognised, hunreadApart, hreadApart⟩ := hnames
    obtain ⟨hsearchedA, hsearchedB⟩ := hsearched i join a b rfl
    obtain ⟨onRight, hright, hempty⟩ := intersectCorrelatedAttributes_spec hd hrecognised hsearchedB
    have hmove (htype : join.type = .crossProduct ∨ join.type = .inner ∨ join.type = .left) :
        depJoinMove s.tree.root depJoin dependent d (.join i join a b) =
          if onRight.isEmpty then some (.replace (.join i join (.join depJoin dependent d a) b))
          else if join.type = .left then some .stay
          else (intersectCorrelatedAttributes s.tree.root d a).map fun onLeft =>
            if onLeft.isEmpty then .replace (.join i join a (.join depJoin dependent d b))
            else .split i join a b := by
      have hbelow : depJoinMove s.tree.root depJoin dependent d (.join i join a b) =
          belowJoin s.tree.root depJoin dependent d i join a b := by
        rw [depJoinMove]
        rcases htype with htype | htype | htype
        · rw [htype]
        · rw [htype]
        · rw [htype]
      rw [hbelow, belowJoin, hholeA, hholeB, hright]
      rfl
    have htoLeft (htype : join.type = .crossProduct ∨ join.type = .inner ∨ join.type = .left)
        (hunread : Unread db d b) :
        ∃ t, depJoinMove s.tree.root depJoin dependent d (.join i join a b) = some (.replace t) ∧
          ∀ (I : Interpretation V) (env : Row V), SameRows
            (evaluate db I (.join depJoin dependent d (.join i join a b)) env)
            (evaluate db I t env) := by
      rw [hmove htype, if_pos (hempty.mpr hunread)]
      exact ⟨_, rfl, fun I env => .of_eq (evaluate_dependent_left halias hmarker htype hcombinesB
        hunread (hunreadApart hunread))⟩
    have hinner (htype : join.type = .crossProduct ∨ join.type = .inner)
        (hread : Unread db d a ∨ Unread db d b) :
        ∃ t, depJoinMove s.tree.root depJoin dependent d (.join i join a b) = some (.replace t) ∧
          ∀ (I : Interpretation V) (env : Row V), SameRows
            (evaluate db I (.join depJoin dependent d (.join i join a b)) env)
            (evaluate db I t env) := by
      by_cases hunread : Unread db d b
      · exact htoLeft (htype.imp_right .inl) hunread
      · have hunreadA := hread.resolve_right hunread
        obtain ⟨hrecognisedA, hcondition⟩ := hreadApart hunread
        obtain ⟨onLeft, hleft, hleftEmpty⟩ :=
          intersectCorrelatedAttributes_spec hd hrecognisedA hsearchedA
        have hnotLeft : join.type ≠ .left := by
          rcases htype with htype | htype
          · simp [htype]
          · simp [htype]
        rw [hmove (htype.imp_right .inl), if_neg (fun h => hunread (hempty.mp h)),
          if_neg hnotLeft, hleft, Option.map_some, if_pos (hleftEmpty.mpr hunreadA)]
        exact ⟨_, rfl, fun I env =>
          evaluate_dependent_right halias hmarker htype hcombinesA hunreadA hcondition⟩
    cases htype : join.type with
    | crossProduct => exact hinner (.inl htype) (by simpa only [htype] using hread)
    | inner => exact hinner (.inr htype) (by simpa only [htype] using hread)
    | left => exact htoLeft (.inr (.inr htype)) (by simpa only [htype] using hread)
    | _ =>
      simp only [htype] at hread

end

/-- `select min(a.n) from r, q where r.k = s.k` in the right side, once its condition has been pushed
down; D passes on `s.k`. -/
def correlatedLeft : State where
  tree :=
    { root := .projection 0 { args := [], subqueryAlias := "t0" } <|
        .join 1 dependent
          (.projection 3
            { args := [.attribute "k" ""], subqueryAlias := "d", subqueryColumns := ["k"] }
            (.relation 4 "s" ""))
          (.join 2 { type := .crossProduct }
            (.selection 5 (.predicate (.attribute "k" "r") (.attribute "k" "d") "=")
              (.relation 6 "r" ""))
            (.relation 7 "q" ""))
      nextId := 8 }

private theorem dependentPlace_correlatedLeft : DependentPlace correlatedLeft
    [.unary 0 (.projection { args := [], subqueryAlias := "t0" })] 1 0
    (.projection 3
      { args := [.attribute "k" ""], subqueryAlias := "d", subqueryColumns := ["k"] }
      (.relation 4 "s" ""))
    (.join 2 { type := .crossProduct }
      (.selection 5 (.predicate (.attribute "k" "r") (.attribute "k" "d") "=")
        (.relation 6 "r" ""))
      (.relation 7 "q" "")) where
  root := rfl
  outside := by decide
  top := ⟨_, rfl, rfl⟩
  searched := by
    have hdistinct : Distinct correlatedLeft.tree.root := by
      rw [Distinct]
      decide
    intro i join a b h
    cases h
    constructor
    · refine searched_of_houses ⟨⟨[.left 2 { type := .crossProduct } (.relation 7 "q" ""), .right 1
        dependent _, .unary 0 _], rfl⟩, hdistinct, by decide⟩ ⟨by rintro _ ⟨⟩, trivial⟩ ?_
      decide
    · refine searched_of_houses ⟨⟨[.right 2 { type := .crossProduct } _, .right 1 dependent _,
        .unary 0 _], rfl⟩, hdistinct, by decide⟩ trivial ?_
      decide

/-- `select min(j.x) from (r cross join q) as j(x, y) where j.x = s.k`, once the dependent join has
changed places with the Selection. -/
def aliasedJoin : State where
  tree :=
    { root := .projection 0 { args := [], subqueryAlias := "t0" } <|
        .selection 5 (.predicate (.attribute "x" "j") (.attribute "k" "d") "=") <|
          .join 1 dependent
            (.projection 3
              { args := [.attribute "k" ""], subqueryAlias := "d", subqueryColumns := ["k"] }
              (.relation 4 "s" ""))
            (.join 2 { type := .crossProduct, aliasName := "j", columns := ["x", "y"] }
              (.relation 6 "r" "") (.relation 7 "q" ""))
      nextId := 8 }

private theorem dependentPlace_aliasedJoin : DependentPlace aliasedJoin
    [.unary 5 (.selection (.predicate (.attribute "x" "j") (.attribute "k" "d") "=")),
      .unary 0 (.projection { args := [], subqueryAlias := "t0" })] 1 0
    (.projection 3
      { args := [.attribute "k" ""], subqueryAlias := "d", subqueryColumns := ["k"] }
      (.relation 4 "s" ""))
    (.join 2 { type := .crossProduct, aliasName := "j", columns := ["x", "y"] }
      (.relation 6 "r" "") (.relation 7 "q" "")) where
  root := rfl
  outside := by decide
  top := ⟨_, rfl, rfl⟩
  searched := by
    have hdistinct : Distinct aliasedJoin.tree.root := by
      rw [Distinct]
      decide
    intro i join a b h
    cases h
    constructor
    · refine searched_of_houses ⟨⟨[.left 2 _ (.relation 7 "q" ""), .right 1 dependent _,
        .unary 5 _, .unary 0 _], rfl⟩, hdistinct, by decide⟩ trivial ?_
      decide
    · refine searched_of_houses ⟨⟨[.right 2 _ (.relation 6 "r" ""), .right 1 dependent _,
        .unary 5 _, .unary 0 _], rfl⟩, hdistinct, by decide⟩ trivial ?_
      decide

end SqlOptimizer.Unnesting.PushedDepJoins
