import SqlOptimizer.Semantics.RowShape
import SqlOptimizer.Tree.Nodes

/-!
What a tree reads from the rows of the enclosing queries: the references in its operators that no
row below the operator gives. Two environments that give the same for these give the same rows.
-/

set_option autoImplicit false
set_option relaxedAutoImplicit false

namespace SqlOptimizer.Semantics.FreeReads

open Algebra.RelationalAlgebra
open Tree.Nodes
open Logic.NestedLoops Logic.ThreeValued
open Evaluation References RowShape

/-- The expressions that are evaluated for the rows below an operator. -/
def operatorExprs : UnaryOp → List Expr
  | .root => []
  | .projection pr => pr.args
  | .selection p => [p]
  | .groupBy args _ => args
  | .having p => [p]
  | .orderBy _ _ => []

/-- The right side is evaluated for every row of the left side. -/
def isNested (join : Join) : Bool := join.marker ≠ 0 || join.type = .dependentInnerLeft

/-- Without a marker, rows of both sides are combined. -/
def CombinesRows : RaNode → Prop
  | .hole => True
  | .leaf _ _ => True
  | .unary _ _ c => CombinesRows c
  | .join _ join l r =>
      (join.marker = 0 → join.type ∈
        [.crossProduct, .inner, .left, .fullOuter, .dependentInnerLeft]) ∧
      CombinesRows l ∧ CombinesRows r

variable {V : Type} (db : Database V)

/-- The row that the condition of a join is evaluated on. -/
def conditionRow (join : Join) (l r : RaNode) : Row V :=
  if join.marker ≠ 0 then nullRow db l else nullRow db l ++ nullRow db r

/-- The reference is read in the tree, and no row below the operator that reads it gives it. -/
def Reads : RaNode → Reference → Prop
  | .hole, _ => False
  | .leaf _ (.values vs _ _), q => q ∈ allReferences vs
  | .leaf _ _, _ => False
  | .unary _ op c, q =>
      Reads c q ∨ q ∈ allReferences (operatorExprs op) ∧ ¬ Offers (nullRow db c) q
  | .join _ join l r, q =>
      Reads l q ∨ Reads r q ∧ (isNested join = true → ¬ Offers (nullRow db l) q) ∨
        q ∈ references join.predicate ∧ ¬ Offers (conditionRow db join l r) q

/-- A select expression that stands for the columns of the row itself. -/
def isStar : Expr → Bool
  | .selectExpression (.attribute "*" _) _ => true
  | .attribute "*" _ => true
  | _ => false

/-- The expressions whose values an operator takes. -/
def valueExprs : UnaryOp → List Expr
  | .projection pr => pr.args.filter fun e => !isStar e
  | op => operatorExprs op

/-- The value of the reference is taken in the tree, and no row below the operator that takes it
gives it. -/
def TakesValue : RaNode → Reference → Prop
  | .hole, _ => False
  | .leaf _ (.values vs _ _), q => q ∈ allReferences vs
  | .leaf _ _, _ => False
  | .unary _ op c, q =>
      TakesValue c q ∨ q ∈ allReferences (valueExprs op) ∧ ¬ Offers (nullRow db c) q
  | .join _ join l r, q =>
      TakesValue l q ∨ TakesValue r q ∧ (isNested join = true → ¬ Offers (nullRow db l) q) ∨
        q ∈ references join.predicate ∧ ¬ Offers (conditionRow db join l r) q

/-- The expressions that are evaluated at a node itself. -/
def readExprs : RaNode → List Expr
  | .hole => []
  | .leaf _ (.values vs _ _) => vs
  | .leaf _ _ => []
  | .unary _ op _ => operatorExprs op
  | .join _ join _ _ => [join.predicate]

section

variable {db : Database V} {t : RaNode} {q : Reference}

private theorem mem_operatorExprs {op : UnaryOp} {e : Expr} (h : e ∈ valueExprs op) :
    e ∈ operatorExprs op := by
  cases op with
  | projection pr => exact (List.mem_filter.mp h).1
  | _ => exact h

/-- A value that is taken is read. -/
theorem TakesValue.reads (h : TakesValue db t q) : Reads db t q := by
  induction t with
  | hole => exact h.elim
  | leaf i op => cases op <;> exact h
  | unary i op c ih =>
    refine h.imp ih (And.imp_left fun hq => ?_)
    rw [allReferences_eq_flatMap, List.mem_flatMap] at hq ⊢
    obtain ⟨e, he, hq⟩ := hq
    exact ⟨e, mem_operatorExprs he, hq⟩
  | join i join l r ihl ihr => exact h.imp ihl (Or.imp_left (And.imp_left ihr))

/-- What a tree reads is read at one of its nodes. -/
theorem Reads.exists_node (h : Reads db t q) : ∃ n ∈ nodes t, q ∈ allReferences (readExprs n) := by
  induction t with
  | hole => exact h.elim
  | leaf i op =>
    cases op with
    | values vs a column => exact ⟨_, List.mem_singleton_self _, h⟩
    | _ => exact h.elim
  | unary i op c ih =>
    rcases h with h | ⟨h, -⟩
    · obtain ⟨n, hn, hq⟩ := ih h
      exact ⟨n, List.mem_cons_of_mem _ hn, hq⟩
    · exact ⟨_, List.mem_cons_self, h⟩
  | join i join l r ihl ihr =>
    rcases h with h | ⟨h, -⟩ | ⟨h, -⟩
    · obtain ⟨n, hn, hq⟩ := ihl h
      exact ⟨n, List.mem_cons_of_mem _ (List.mem_append_left _ hn), hq⟩
    · obtain ⟨n, hn, hq⟩ := ihr h
      exact ⟨n, List.mem_cons_of_mem _ (List.mem_append_right _ hn), hq⟩
    · refine ⟨_, List.mem_cons_self, ?_⟩
      rw [readExprs, allReferences, allReferences, List.append_nil]
      exact h

private theorem not_offers_nullRow (h : ∀ n ∈ nodes t, ¬ Offers (nullRow db n) q) :
    ¬ Offers (nullRow db t) q := by
  by_cases ht : t = .hole
  · subst ht
    rintro ⟨b, hb, -⟩
    cases hb
  · exact h t (mem_nodes_self ht)

/-- What no row in the tree gives is read by the tree when it is read at a node. -/
theorem reads_of_node (h : ∀ n ∈ nodes t, ¬ Offers (nullRow db n) q) {n : RaNode}
    (hn : n ∈ nodes t) (hq : q ∈ allReferences (readExprs n)) : Reads db t q := by
  induction t with
  | hole => cases hn
  | leaf i op =>
    cases List.mem_singleton.mp hn
    cases op with
    | values vs a column => exact hq
    | _ => cases hq
  | unary i op c ih =>
    rw [nodes, List.forall_mem_cons] at h
    rcases List.mem_cons.mp hn with rfl | hn
    · exact .inr ⟨hq, not_offers_nullRow h.2⟩
    · exact .inl (ih h.2 hn)
  | join i join l r ihl ihr =>
    rw [nodes, List.forall_mem_cons, List.forall_mem_append] at h
    have hl := not_offers_nullRow h.2.1
    have hr := not_offers_nullRow h.2.2
    rcases List.mem_cons.mp hn with rfl | hn
    · refine .inr (.inr ⟨?_, ?_⟩)
      · rw [readExprs, allReferences, allReferences, List.append_nil] at hq
        exact hq
      · rw [conditionRow]
        split
        · exact hl
        · rw [offers_append, not_or]
          exact ⟨hl, hr⟩
    · rcases List.mem_append.mp hn with hn | hn
      · exact .inl (ihl h.2.1 hn)
      · exact .inr (.inl ⟨ihr h.2.2 hn, fun _ => hl⟩)

end

section

variable {row env env' : Row V} {rs : List Reference}

/-- A reference that the first row gives does not see what follows. -/
theorem lookup_append_of_offers {q : Reference} (h : Offers row q) (s s' : Row V) :
    lookup (row ++ s) q = lookup (row ++ s') q := by
  obtain ⟨b, hb, hsome⟩ := h
  obtain ⟨v, hv⟩ : ∃ v, row.findSome? (resolve q) = some v := by
    rw [← Option.isSome_iff_exists, List.findSome?_isSome_iff]
    exact ⟨b, hb, hsome⟩
  simp only [lookup, List.findSome?_append, hv, Option.some_or]

theorem lookup_append {q : Reference} (h : ¬ Offers row q → lookup env q = lookup env' q) :
    lookup (row ++ env) q = lookup (row ++ env') q := by
  by_cases hrow : Offers row q
  · exact lookup_append_of_offers hrow env env'
  · exact lookup_append_congr (h hrow)

/-- Two rows change places for a reference that they do not both give. -/
theorem lookup_swap {x y : Row V} {q : Reference} (h : Offers x q → ¬ Offers y q) :
    lookup (x ++ (y ++ env)) q = lookup (y ++ (x ++ env)) q := by
  by_cases hx : Offers x q
  · rw [lookup_append_left (h hx), lookup_append_of_offers hx (y ++ env) env]
  · rw [lookup_append_left hx]
    exact lookup_append_congr (lookup_append_left hx).symm

end

variable [DecidableEq V] (I : Interpretation V)

variable {db I}

/-- A row of a tree gives what its row of NULLs gives. -/
theorem offers_of_mem {t : RaNode} {env : Row V} {s : Tuple V} (hs : s ∈ evaluate db I t env)
    {q : Reference} : Offers s.row q ↔ Offers (nullRow db t) q := by
  rw [← shape_evaluate db I t env s hs, offers_erase]

omit [DecidableEq V] in
private theorem mem_groups {κ : Type} [DecidableEq κ] {key : Tuple V → κ} {ts l : List (Tuple V)}
    (h : ts ∈ groups key l) : ∀ t ∈ ts, t ∈ l := by
  obtain ⟨k, -, rfl⟩ := List.mem_map.mp h
  exact fun t ht => (List.mem_filter.mp ht).1

/-- So do the rows of the group that a row stands for. -/
theorem shape_members {t : RaNode} (ht : CombinesRows t) (env : Row V) :
    ∀ s ∈ evaluate db I t env, ∀ m ∈ s.members, m.map erase = nullRow db t := by
  induction t generalizing env with
  | hole => exact nofun
  | leaf i op =>
    intro s hs m hm
    cases op with
    | relation name a =>
      obtain ⟨r, -, rfl⟩ := List.mem_map.mp hs
      cases hm
    | values vs a column =>
      obtain ⟨v, -, rfl⟩ := List.mem_map.mp hs
      cases hm
    | dummy =>
      cases List.mem_singleton.mp hs
      cases hm
  | unary i op c ih =>
    intro s hs m hm
    have hgroup {ts : List (Tuple V)} (hts : ∀ u ∈ ts, u ∈ evaluate db I c env)
        (hm : m ∈ (groupTuple (nullRow db c) ts).members) : m.map erase = nullRow db c := by
      obtain ⟨u, hu, rfl⟩ := List.mem_map.mp hm
      exact shape_evaluate db I c env u (hts u hu)
    cases op with
    | root => exact ih ht env s hs m hm
    | selection p => exact ih ht env s (List.mem_filter.mp hs).1 m hm
    | having p => exact ih ht env s (List.mem_filter.mp hs).1 m hm
    | orderBy args directions => exact ih ht env s hs m hm
    | projection pr =>
      have hs' : s ∈ (evaluate db I c env).map fun t =>
          (⟨projectRow pr (value I (t.context env)) t.row, []⟩ : Tuple V) := by
        rw [evaluate] at hs
        split at hs
        · exact List.mem_dedup.mp hs
        · exact hs
      obtain ⟨u, -, rfl⟩ := List.mem_map.mp hs'
      cases hm
    | groupBy args implicit =>
      cases implicit with
      | true =>
        cases List.mem_singleton.mp hs
        exact hgroup (fun _ h => h) hm
      | false =>
        obtain ⟨ts, hts, rfl⟩ := List.mem_map.mp hs
        exact hgroup (mem_groups hts) hm
  | join i join l r ihl ihr =>
    intro s hs m hm
    have hnone : s.members = [] := by
      obtain ⟨t, ht', rfl⟩ := List.mem_map.mp hs
      by_cases hmarker : join.marker ≠ 0
      · rw [if_pos hmarker] at ht'
        obtain ⟨a, -, rfl⟩ := List.mem_map.mp ht'
        rfl
      · rw [if_neg hmarker] at ht'
        have hmatching {on : Tuple V → Bool} {b : List (Tuple V)} {a : Tuple V}
            (h : t ∈ matching beside on b a) : t.members = [] := by
          obtain ⟨u, -, rfl, -⟩ := mem_matching.mp h
          rfl
        have hleft {on : Tuple V → Bool} {a b : List (Tuple V)} {pad : Row V}
            (h : t ∈ leftJoin beside (beside · ⟨pad, []⟩) on a b) : t.members = [] := by
          obtain ⟨u, -, h | ⟨rfl, -⟩⟩ := mem_leftJoin.mp h
          · obtain ⟨v, -, rfl, -⟩ := h
            rfl
          · rfl
        have htype := ht.1 (not_not.mp hmarker)
        simp only [List.mem_cons, List.not_mem_nil, or_false] at htype
        rcases htype with htype | htype | htype | htype | htype
        · simp only [htype] at ht'
          obtain ⟨a, -, h⟩ := List.mem_flatMap.mp ht'
          exact hmatching h
        · simp only [htype] at ht'
          obtain ⟨a, -, h⟩ := List.mem_flatMap.mp ht'
          exact hmatching h
        · simp only [htype] at ht'
          exact hleft ht'
        · simp only [htype] at ht'
          rcases List.mem_append.mp ht' with h | h
          · exact hleft h
          · obtain ⟨u, -, rfl⟩ := List.mem_map.mp h
            rfl
        · simp only [htype] at ht'
          obtain ⟨a, -, h⟩ := List.mem_flatMap.mp ht'
          exact hmatching h
    rw [hnone] at hm
    cases hm

section

variable {env env' : Row V}

private theorem agree_context {t : RaNode} (ht : CombinesRows t) {s : Tuple V}
    (hs : s ∈ evaluate db I t env) {rs : List Reference}
    (h : ∀ q ∈ rs, ¬ Offers (nullRow db t) q → lookup env q = lookup env' q) :
    ContextAgree rs (s.context env) (s.context env') := by
  constructor
  · intro q hq
    exact lookup_append fun hoff => h q hq fun hnull => hoff ((offers_of_mem hs).mpr hnull)
  · rw [Tuple.context, Tuple.context, List.forall₂_map_left_iff, List.forall₂_map_right_iff,
      List.forall₂_same]
    intro m hm q hq
    refine lookup_append fun hoff => h q hq fun hnull => hoff ?_
    rw [← offers_erase, shape_members ht env s hs m hm]
    exact hnull

omit [DecidableEq V] in
private theorem agree_row {rs : List Reference} {row shape : Row V}
    (hshape : ∀ q, Offers row q ↔ Offers shape q)
    (h : ∀ q ∈ rs, ¬ Offers shape q → lookup env q = lookup env' q) :
    ContextAgree rs ⟨row ++ env, []⟩ ⟨row ++ env', []⟩ := by
  refine ⟨fun q hq => ?_, .nil⟩
  exact lookup_append fun hoff => h q hq fun hnull => hoff ((hshape q).mpr hnull)

private theorem satisfies_congr {p : Expr} {t : Tuple V} {shape : Row V}
    (hshape : ∀ q, Offers t.row q ↔ Offers shape q)
    (h : ∀ q ∈ references p, ¬ Offers shape q → lookup env q = lookup env' q) :
    satisfies I env p t = satisfies I env' p t := by
  rw [satisfies, satisfies, truth, truth, (determined I p).truth (agree_row hshape h)]

omit [DecidableEq V] in
private theorem groups_congr {κ : Type} [DecidableEq κ] {f g : Tuple V → κ} {l : List (Tuple V)}
    (h : ∀ t ∈ l, f t = g t) : groups f l = groups g l := by
  rw [groups, groups, List.map_congr_left h]
  refine List.map_congr_left fun k _ => List.filter_congr fun t ht => ?_
  rw [h t ht]

omit [DecidableEq V] in
private theorem projectRow_congr {pr : Projection} {f g : Expr → Option V} (row : Row V)
    (h : ∀ e ∈ valueExprs (.projection pr), f e = g e) : projectRow pr f row = projectRow pr g row := by
  have hcolumn : ∀ e ∈ pr.args, selectColumn f row e = selectColumn g row e := by
    intro e he
    unfold selectColumn
    split
    · rfl
    · rfl
    · next hselect hattribute =>
      have hstar : isStar e = false := by
        unfold isStar
        split
        · next a rename => exact absurd rfl (hselect a rename)
        · next a => exact absurd rfl (hattribute a)
        · rfl
      rw [h e (List.mem_filter.mpr ⟨he, by rw [hstar]; rfl⟩)]
  rw [projectRow, projectRow, List.flatMap_congr hcolumn]

omit [DecidableEq V] in
private theorem matching_congr {on on' : Tuple V → Bool} {a : Tuple V} {b : List (Tuple V)}
    (h : ∀ u ∈ b, on (beside a u) = on' (beside a u)) :
    matching beside on b a = matching beside on' b a := by
  refine List.filter_congr fun t ht => ?_
  obtain ⟨u, hu, rfl⟩ := List.mem_map.mp ht
  exact h u hu

private theorem subqueryBinding_congr {join : Join} {row shape : Row V} {rows : List (Tuple V)}
    (hshape : ∀ q, Offers row q ↔ Offers shape q)
    (h : ∀ q ∈ references join.predicate, ¬ Offers shape q → lookup env q = lookup env' q) :
    subqueryBinding I join (row ++ env) rows = subqueryBinding I join (row ++ env') rows := by
  have hprobe {probe e : Expr} {op : String} (hp : join.predicate = .predicate probe e op) :
      (meaning I probe).operand ⟨row ++ env, []⟩ = (meaning I probe).operand ⟨row ++ env', []⟩ := by
    refine (determined I probe).operand (agree_row hshape fun q hq => h q ?_)
    rw [hp, references]
    exact List.mem_append_left _ hq
  unfold subqueryBinding
  cases hp : join.predicate with
  | predicate probe e op => simp only [hprobe hp]
  | _ => rfl

end

/-- The rows of a tree depend on the environment only through the values that it takes from it. -/
theorem evaluate_congr_values {t : RaNode} (ht : CombinesRows t) {env env' : Row V}
    (h : ∀ q, TakesValue db t q → lookup env q = lookup env' q) :
    evaluate db I t env = evaluate db I t env' := by
  induction t generalizing env env' with
  | hole => rfl
  | leaf i op =>
    cases op with
    | values vs a column =>
      refine List.map_congr_left fun v hv => ?_
      have hagree : ContextAgree (references v) ⟨env, []⟩ ⟨env', []⟩ :=
        ⟨fun q hq => h q (mem_allReferences hv hq), .nil⟩
      rw [value, value, (determined I v).value hagree]
    | _ => rfl
  | unary i op c ih =>
    have hcombines : CombinesRows c := ht
    have hc : evaluate db I c env = evaluate db I c env' := ih ht fun q hq => h q (.inl hq)
    have hop {e : Expr} (he : e ∈ valueExprs op) :
        ∀ q ∈ references e, ¬ Offers (nullRow db c) q → lookup env q = lookup env' q :=
      fun q hq hoff => h q (.inr ⟨mem_allReferences he hq, hoff⟩)
    cases op with
    | root => exact hc
    | orderBy args directions => exact hc
    | selection p =>
      rw [evaluate, evaluate, ← hc]
      refine List.filter_congr fun s hs => ?_
      exact satisfies_congr (fun q => offers_of_mem hs) (hop (List.mem_singleton_self p))
    | having p =>
      rw [evaluate, evaluate, ← hc]
      refine List.filter_congr fun s hs => ?_
      rw [truth, truth, (determined I p).truth
        (agree_context hcombines hs (hop (List.mem_singleton_self p)))]
    | projection pr =>
      rw [evaluate, evaluate, ← hc]
      have hrows : (evaluate db I c env).map (fun t =>
            (⟨projectRow pr (value I (t.context env)) t.row, []⟩ : Tuple V)) =
          (evaluate db I c env).map fun t =>
            ⟨projectRow pr (value I (t.context env')) t.row, []⟩ := by
        refine List.map_congr_left fun s hs => ?_
        have hvalue : ∀ e ∈ valueExprs (.projection pr),
            value I (s.context env) e = value I (s.context env') e :=
          fun e he => (determined I e).value (agree_context hcombines hs (hop he))
        rw [projectRow_congr s.row hvalue]
      rw [hrows]
    | groupBy args implicit =>
      cases implicit with
      | true => rw [evaluate, evaluate, hc]
      | false =>
        rw [evaluate, evaluate, ← hc]
        refine congrArg _ (groups_congr fun s hs => List.map_congr_left fun e he => ?_)
        exact (determined I e).value (agree_row (fun q => offers_of_mem hs) (hop he))
  | join i join l r ihl ihr =>
    have hl : evaluate db I l env = evaluate db I l env' := ihl ht.2.1 fun q hq => h q (.inl hq)
    have hnested {a : Tuple V} (ha : a ∈ evaluate db I l env) (hn : isNested join = true) :
        evaluate db I r (a.row ++ env) = evaluate db I r (a.row ++ env') := by
      refine ihr ht.2.2 fun q hq => lookup_append fun hoff => h q (.inr (.inl ⟨hq, fun _ hnull => ?_⟩))
      exact hoff ((offers_of_mem ha).mpr hnull)
    have hright (hn : isNested join = false) :
        evaluate db I r env = evaluate db I r env' :=
      ihr ht.2.2 fun q hq => h q (.inr (.inl ⟨hq, fun h => by simp [hn] at h⟩))
    rw [evaluate, evaluate, ← hl]
    refine congrArg _ ?_
    by_cases hmarker : join.marker ≠ 0
    · have hprobe : ∀ q ∈ references join.predicate, ¬ Offers (nullRow db l) q →
          lookup env q = lookup env' q := by
        intro q hq hoff
        refine h q (.inr (.inr ⟨hq, ?_⟩))
        rw [conditionRow, if_pos hmarker]
        exact hoff
      rw [if_pos hmarker, if_pos hmarker]
      refine List.map_congr_left fun a ha => ?_
      rw [← hnested ha (by simp [isNested, hmarker]),
        subqueryBinding_congr (fun q => offers_of_mem ha) hprobe]
    · rw [if_neg hmarker, if_neg hmarker]
      have hcondition {a b : Tuple V} (ha : a ∈ evaluate db I l env)
          (hb : ∀ q, Offers b.row q ↔ Offers (nullRow db r) q) :
          satisfies I env join.predicate (beside a b) =
            satisfies I env' join.predicate (beside a b) := by
        refine satisfies_congr (fun q => ?_) fun q hq hoff => h q (.inr (.inr ⟨hq, hoff⟩))
        rw [conditionRow, if_neg hmarker, beside, offers_append, offers_append, offers_of_mem ha, hb]
      have hmatching {a : Tuple V} {rows : List (Tuple V)} {env₁ : Row V}
          (ha : a ∈ evaluate db I l env) (hrows : ∀ b ∈ rows, b ∈ evaluate db I r env₁) :
          matching beside (satisfies I env join.predicate) rows a =
            matching beside (satisfies I env' join.predicate) rows a :=
        matching_congr fun b hb => hcondition ha fun q => offers_of_mem (hrows b hb)
      have hinner (hr : evaluate db I r env = evaluate db I r env') :
          innerJoin beside (satisfies I env join.predicate) (evaluate db I l env)
              (evaluate db I r env) =
            innerJoin beside (satisfies I env' join.predicate) (evaluate db I l env)
              (evaluate db I r env') := by
        rw [← hr]
        exact List.flatMap_congr fun a ha => hmatching ha fun b hb => hb
      have hleft (hr : evaluate db I r env = evaluate db I r env') :
          leftJoin beside (beside · ⟨nullRow db r, []⟩) (satisfies I env join.predicate)
              (evaluate db I l env) (evaluate db I r env) =
            leftJoin beside (beside · ⟨nullRow db r, []⟩) (satisfies I env' join.predicate)
              (evaluate db I l env) (evaluate db I r env') := by
        rw [← hr]
        refine List.flatMap_congr fun a ha => ?_
        rw [hmatching ha fun b hb => hb]
      have hunmatched (hr : evaluate db I r env = evaluate db I r env') :
          unmatched beside (satisfies I env join.predicate) (evaluate db I l env)
              (evaluate db I r env) =
            unmatched beside (satisfies I env' join.predicate) (evaluate db I l env)
              (evaluate db I r env') := by
        rw [← hr]
        refine List.filter_congr fun b hb => congrArg _ ?_
        rw [Bool.eq_iff_iff, List.any_eq_true, List.any_eq_true]
        refine exists_congr fun a => and_congr_right fun ha => ?_
        rw [hcondition ha fun q => offers_of_mem hb]
      have htype := ht.1 (not_not.mp hmarker)
      simp only [List.mem_cons, List.not_mem_nil, or_false] at htype
      rcases htype with htype | htype | htype | htype | htype
      · simp only [htype]
        exact hinner (hright (by simp [isNested, not_not.mp hmarker, htype]))
      · simp only [htype]
        exact hinner (hright (by simp [isNested, not_not.mp hmarker, htype]))
      · simp only [htype]
        exact hleft (hright (by simp [isNested, not_not.mp hmarker, htype]))
      · have hr := hright (by simp [isNested, not_not.mp hmarker, htype])
        simp only [htype]
        rw [hleft hr, hunmatched hr]
      · simp only [htype]
        refine List.flatMap_congr fun a ha => ?_
        simp only [← hnested ha (by simp [isNested, htype])]
        exact hmatching ha fun b hb => hb

theorem evaluate_congr {t : RaNode} (ht : CombinesRows t) {env env' : Row V}
    (h : ∀ q, Reads db t q → lookup env q = lookup env' q) :
    evaluate db I t env = evaluate db I t env' :=
  evaluate_congr_values ht fun q hq => h q hq.reads

end SqlOptimizer.Semantics.FreeReads
