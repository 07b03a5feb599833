import SqlOptimizer.Logic.FlagLoops
import SqlOptimizer.Tree.Paths
import SqlOptimizer.Tree.PushDown

/-!
The two searches of `ra_tree.cc` that report a node through a reference of their caller.
They move the reference to every child before they know whether the search below it
succeeds, and stop through a flag.
-/

set_option autoImplicit false
set_option relaxedAutoImplicit false

namespace SqlOptimizer.Tree.ReferenceSearch

open Algebra.RelationalAlgebra
open Frames Walks PushDown Paths
open Logic.FlagLoops

/-- The call for a child, which may be missing. -/
def callOn {σ : Type} (c : RaNode) (call : σ → Bool × σ) : List (σ → Bool × σ) :=
  if c.isHole then [] else [call]

/-- The body of `RaTree::find_node_where_relations_defined` with its calls for the children. -/
def searchBelow (relations : List String) (it : RaNode) (calls : List (RaNode → Bool × RaNode)) :
    Bool × RaNode :=
  if hasRelationsDefined it relations then
    let r := tryAll calls (false, it)
    (true, if r.1 then r.2 else it)
  else (false, it)

/-- `RaTree::find_node_where_relations_defined`: the answer and what the reference `it` then
points at. -/
def findNode (relations : List String) : RaNode → Bool × RaNode
  | .hole => (false, .hole)
  | .leaf i op => searchBelow relations (.leaf i op) []
  | .unary i op c =>
      searchBelow relations (.unary i op c) (callOn c fun _ => findNode relations c)
  | .join i join l r =>
      searchBelow relations (.join i join l r)
        ((callOn l fun _ => findNode relations l) ++ callOn r fun _ => findNode relations r)

/-- The body of `RaTree::get_node_parent` with its calls for the children. -/
def searchChildren (target : Nat) (it : RaNode) (childIndex : Int)
    (calls : List (RaNode × Int → Bool × RaNode × Int)) : Bool × RaNode × Int :=
  match it.childNodes.findIdx? fun c => c.id? = some target with
  | some i => (true, it, i)
  | none => tryAll calls (false, it, childIndex)

/-- `RaTree::get_node_parent`: the answer, what the reference `it` then points at, and the
value of `child_index`. -/
def nodeParent (target : Nat) : RaNode → Int → Bool × RaNode × Int
  | .hole, childIndex => (false, .hole, childIndex)
  | .leaf i op, childIndex => searchChildren target (.leaf i op) childIndex []
  | .unary i op c, childIndex =>
      searchChildren target (.unary i op c) childIndex (callOn c fun s => nodeParent target c s.2)
  | .join i join l r, childIndex =>
      searchChildren target (.join i join l r) childIndex
        ((callOn l fun s => nodeParent target l s.2) ++ callOn r fun s => nodeParent target r s.2)

/-- The children that are there. -/
def presentChildren (t : RaNode) : List RaNode := t.childNodes.filter fun c => !c.isHole

theorem mem_presentChildren {t c : RaNode} :
    c ∈ presentChildren t ↔ c ∈ t.childNodes ∧ c ≠ .hole := by
  rw [presentChildren, List.mem_filter]
  cases c <;> simp [RaNode.isHole]

theorem presentChildren_unary (i : Nat) (op : UnaryOp) (c : RaNode) :
    presentChildren (.unary i op c) = if c.isHole then [] else [c] := by
  cases c <;> rfl

theorem presentChildren_join (i : Nat) (join : Join) (l r : RaNode) :
    presentChildren (.join i join l r) =
      (if l.isHole then [] else [l]) ++ if r.isHole then [] else [r] := by
  cases l <;> cases r <;> rfl

/-- The calls for all children. -/
theorem callOn_eq_map {σ : Type} (f : RaNode → σ → Bool × σ) (c : RaNode) :
    callOn c (f c) = (if c.isHole then [] else [c]).map f := by
  unfold callOn
  split <;> rfl

/-- Induction on the height of a tree. -/
theorem induction_children {P : RaNode → Prop}
    (h : ∀ t, (∀ c ∈ presentChildren t, P c) → P t) (t : RaNode) : P t := by
  induction t with
  | hole => exact h _ fun c hc => nomatch hc
  | leaf i op => exact h _ fun c hc => nomatch hc
  | unary i op c ih =>
    apply h
    intro c' hc'
    rw [presentChildren_unary] at hc'
    split at hc'
    · cases hc'
    · exact List.mem_singleton.mp hc' ▸ ih
  | join i join l r ihl ihr =>
    apply h
    intro c hc
    rw [presentChildren_join, List.mem_append] at hc
    rcases hc with hc | hc
    · split at hc
      · cases hc
      · exact List.mem_singleton.mp hc ▸ ihl
    · split at hc
      · cases hc
      · exact List.mem_singleton.mp hc ▸ ihr

/-! ### The names that a node defines -/

/-- A name refers to a relation of the tree from above it. Derived tables and joins with an
alias hide what is below them, joins with a WHERE subquery hide the subquery. -/
inductive Defines (name : String) : RaNode → Prop
  | relation (i : Nat) {relname aliasName : String} (h : name = relname ∨ name = aliasName) :
      Defines name (.relation i relname aliasName)
  | derivedTable (i : Nat) {pr : Projection} (c : RaNode) (halias : pr.subqueryAlias ≠ "")
      (h : name = "" ∨ name = pr.subqueryAlias) : Defines name (.projection i pr c)
  | child (i : Nat) {op : UnaryOp} {c : RaNode}
      (hop : ∀ pr, op = .projection pr → pr.subqueryAlias = "") (h : Defines name c) :
      Defines name (.unary i op c)
  | joinAlias (i : Nat) {join : Join} (l r : RaNode) (halias : join.aliasName ≠ "")
      (h : name = "" ∨ name = join.aliasName) : Defines name (.join i join l r)
  | marker (i : Nat) {join : Join} (l r : RaNode) (halias : join.aliasName = "")
      (hmarker : join.marker ≠ 0) (h : name = "" ∨ name = "marker_" ++ toString join.marker) :
      Defines name (.join i join l r)
  | left (i : Nat) {join : Join} {l : RaNode} (r : RaNode) (halias : join.aliasName = "")
      (h : Defines name l) : Defines name (.join i join l r)
  | right (i : Nat) {join : Join} (l : RaNode) {r : RaNode} (halias : join.aliasName = "")
      (hmarker : join.marker = 0) (h : Defines name r) : Defines name (.join i join l r)

/-- The pairs of `get_relations_aliases` hold the names that the node defines. -/
theorem exists_relationsAliases_iff {name : String} {t : RaNode} :
    (∃ d ∈ getRelationsAliases t, name = d.1 ∨ name = d.2) ↔ Defines name t := by
  constructor
  · intro h
    induction t with
    | hole => simp [getRelationsAliases] at h
    | leaf i op =>
      cases op with
      | relation relname aliasName => exact .relation i (by simpa [getRelationsAliases] using h)
      | _ => simp [getRelationsAliases] at h
    | unary i op c ih =>
      cases op with
      | projection pr =>
        by_cases halias : pr.subqueryAlias = ""
        · refine .child i (fun pr' h' => ?_) (ih (by simpa [getRelationsAliases, halias] using h))
          cases h'
          exact halias
        · exact .derivedTable i c halias (by simpa [getRelationsAliases, halias] using h)
      | _ => exact .child i (fun pr h => nomatch h) (ih h)
    | join i join l r ihl ihr =>
      rw [getRelationsAliases] at h
      split at h
      · next halias => exact .joinAlias i l r halias (by simpa using h)
      · next halias =>
        rw [ne_eq, not_not] at halias
        split at h
        · next hmarker =>
          obtain ⟨d, hd, hname⟩ := h
          rcases List.mem_cons.mp hd with rfl | hd
          · exact .marker i l r halias hmarker hname
          · exact .left i r halias (ihl ⟨d, hd, hname⟩)
        · next hmarker =>
          obtain ⟨d, hd, hname⟩ := h
          rcases List.mem_append.mp hd with hd | hd
          · exact .left i r halias (ihl ⟨d, hd, hname⟩)
          · exact .right i l halias (not_not.mp hmarker) (ihr ⟨d, hd, hname⟩)
  · intro h
    induction h with
    | relation i h => exact ⟨_, List.mem_singleton_self _, h⟩
    | derivedTable i c halias h =>
      rw [getRelationsAliases, if_pos halias]
      exact ⟨_, List.mem_singleton_self _, h⟩
    | @child i op c hop _ ih =>
      cases op with
      | projection pr =>
        rw [getRelationsAliases, if_neg (not_not.mpr (hop pr rfl))]
        exact ih
      | _ => exact ih
    | joinAlias i l r halias h =>
      rw [getRelationsAliases, if_pos halias]
      exact ⟨_, List.mem_singleton_self _, h⟩
    | marker i l r halias hmarker h =>
      rw [getRelationsAliases, if_neg (not_not.mpr halias), if_pos hmarker]
      exact ⟨_, List.mem_cons_self, h⟩
    | left i r halias _ ih =>
      obtain ⟨d, hd, hname⟩ := ih
      rw [getRelationsAliases, if_neg (not_not.mpr halias)]
      split
      · exact ⟨d, List.mem_cons_of_mem _ hd, hname⟩
      · exact ⟨d, List.mem_append_left _ hd, hname⟩
    | right i l halias hmarker _ ih =>
      obtain ⟨d, hd, hname⟩ := ih
      rw [getRelationsAliases, if_neg (not_not.mpr halias), if_neg (not_not.mpr hmarker)]
      exact ⟨d, List.mem_append_right _ hd, hname⟩

theorem hasRelationsDefined_iff {relations : List String} {t : RaNode} :
    hasRelationsDefined t relations = true ↔ ∀ name ∈ relations, Defines name t := by
  simp only [hasRelationsDefined, List.all_eq_true, List.any_eq_true, Bool.or_eq_true,
    decide_eq_true_eq, exists_relationsAliases_iff]

/-! ### The node where the relations are defined -/

section

variable (relations : List String)

theorem findNode_eq {t : RaNode} (ht : t ≠ .hole) :
    findNode relations t =
      searchBelow relations t ((presentChildren t).map fun c _ => findNode relations c) := by
  cases t with
  | hole => exact absurd rfl ht
  | leaf i op => rfl
  | unary i op c =>
    rw [findNode, presentChildren_unary, callOn_eq_map fun c _ => findNode relations c]
  | join i join l r =>
    rw [findNode, presentChildren_join, callOn_eq_map fun c _ => findNode relations c,
      callOn_eq_map fun c _ => findNode relations c, List.map_append]

/-- The answer depends on the starting node only. -/
theorem findNode_fst {t : RaNode} (ht : t ≠ .hole) :
    (findNode relations t).1 = hasRelationsDefined t relations := by
  rw [findNode_eq relations ht, searchBelow]
  split
  · next h => exact h.symm
  · next h => exact (Bool.not_eq_true _ ▸ h).symm

theorem findNodeWhereRelationsDefined_children {t : RaNode} (ht : t ≠ .hole) :
    findNodeWhereRelationsDefined relations t =
      if hasRelationsDefined t relations then
        some (((presentChildren t).findSome? (findNodeWhereRelationsDefined relations)).getD t)
      else none := by
  cases t with
  | hole => exact absurd rfl ht
  | leaf i op => rfl
  | unary i op c =>
    rw [findNodeWhereRelationsDefined, presentChildren_unary]
    cases c with
    | hole => rfl
    | _ => simp [RaNode.isHole]
  | join i join l r =>
    rw [findNodeWhereRelationsDefined, presentChildren_join, List.findSome?_append]
    have hchild (c : RaNode) : (if c.isHole then [] else [c]).findSome?
        (findNodeWhereRelationsDefined relations) = findNodeWhereRelationsDefined relations c := by
      cases c with
      | hole => rfl
      | _ => simp [RaNode.isHole]
    rw [hchild, hchild]

/-- The search as the rest of the development uses it. -/
theorem findNodeWhereRelationsDefined_eq {t : RaNode} (ht : t ≠ .hole) :
    findNodeWhereRelationsDefined relations t =
      if (findNode relations t).1 then some (findNode relations t).2 else none := by
  induction t using induction_children with
  | h t ih =>
    rw [findNodeWhereRelationsDefined_children relations ht, findNode_fst relations ht,
      findNode_eq relations ht, searchBelow,
      ← tryAll_stateless (fun c hc => ih c hc (mem_presentChildren.mp hc).2) t]
    split
    · dsimp only
      split <;> rfl
    · rfl

/-- What `find_node_where_relations_defined` does: the answer is whether the starting node
defines the relations. Then the reference is moved along nodes that define them to one whose
children do not; otherwise it stays. -/
theorem findNode_correct {t : RaNode} (ht : t ≠ .hole) :
    ((findNode relations t).1 = true ↔ ∀ name ∈ relations, Defines name t) ∧
      ((findNode relations t).1 = true → ∃ π,
        nodeAt π t = some (findNode relations t).2 ∧
          (∀ ρ n, ρ <+: π → nodeAt ρ t = some n → ∀ name ∈ relations, Defines name n) ∧
          ∀ c ∈ (findNode relations t).2.childNodes, c ≠ .hole →
            ¬ ∀ name ∈ relations, Defines name c) ∧
      ((findNode relations t).1 = false → (findNode relations t).2 = t) := by
  simp only [← hasRelationsDefined_iff, Bool.not_eq_true]
  refine ⟨by rw [findNode_fst relations ht], fun hfound => ?_, fun hfail => ?_⟩
  · induction t using induction_children with
    | h t ih =>
      rw [findNode_fst relations ht] at hfound
      have hstart (ρ : List Nat) (n : RaNode) (hρ : ρ <+: []) (hn : nodeAt ρ t = some n) :
          hasRelationsDefined n relations = true := by
        obtain rfl := List.prefix_nil.mp hρ
        exact Option.some.inj hn ▸ hfound
      rw [findNode_eq relations ht, searchBelow, if_pos hfound]
      by_cases hbelow : (tryAll ((presentChildren t).map fun c _ => findNode relations c)
          (false, t)).1 = true
      · -- the search below some child has succeeded
        obtain ⟨c, hc, -, hresult⟩ := exists_of_tryAll hbelow
        obtain ⟨hchild, hne⟩ := mem_presentChildren.mp hc
        obtain ⟨k, hk⟩ := List.mem_iff_getElem?.mp hchild
        dsimp only
        rw [if_pos hbelow]
        rw [← hresult] at hbelow ⊢
        obtain ⟨π, hπ, hdefined, hchildren⟩ := ih c hc hne hbelow
        refine ⟨k :: π, ?_, fun ρ n hρ hn => ?_, hchildren⟩
        · rw [nodeAt, hk, Option.bind_some, hπ]
        · cases ρ with
          | nil => exact hstart [] n List.nil_prefix hn
          | cons k' ρ =>
            obtain ⟨rfl, hbelow⟩ := List.cons_prefix_cons.mp hρ
            rw [nodeAt, hk, Option.bind_some] at hn
            exact hdefined ρ n hbelow hn
      · dsimp only
        rw [if_neg hbelow]
        refine ⟨[], rfl, hstart, fun c hc hne => ?_⟩
        have hanswer : ∀ c ∈ presentChildren t, ∀ _ : RaNode,
            (findNode relations c).1 = hasRelationsDefined c relations :=
          fun c hc _ => findNode_fst relations (mem_presentChildren.mp hc).2
        have hanswers := tryAll_fst (f := fun c _ => findNode relations c) hanswer (false, t)
        rw [Bool.not_eq_true] at hbelow
        rw [hbelow, Bool.false_or] at hanswers
        rw [← Bool.not_eq_true]
        exact List.any_eq_false.mp hanswers.symm c (mem_presentChildren.mpr ⟨hc, hne⟩)
  · rw [findNode_fst relations ht] at hfail
    rw [findNode_eq relations ht, searchBelow, if_neg (by simp [hfail])]

end

/-- `r` and a derived table `u` over `s`. -/
def withDerivedTable : RaNode :=
  .selection 1 .nullptr
    (.join 2 { type := .crossProduct } (.relation 3 "r" "")
      (.projection 4 { args := [], subqueryAlias := "u" } (.relation 5 "s" "")))

/-- Only the join defines both `r` and `u`. -/
theorem findNode_withDerivedTable : ∃ π,
    nodeAt π withDerivedTable = some (findNode ["r", "u"] withDerivedTable).2 ∧
      ∀ c ∈ (findNode ["r", "u"] withDerivedTable).2.childNodes, c ≠ .hole →
        ¬ ∀ name ∈ ["r", "u"], Defines name c := by
  have hcorrect := findNode_correct ["r", "u"] (t := withDerivedTable) RaNode.noConfusion
  obtain ⟨π, hπ, -, hchildren⟩ := hcorrect.2.1 (by decide)
  exact ⟨π, hπ, hchildren⟩

/-! ### The parent of a node -/

section

variable (target : Nat)

theorem nodeParent_eq {t : RaNode} (ht : t ≠ .hole) (childIndex : Int) :
    nodeParent target t childIndex =
      searchChildren target t childIndex
        ((presentChildren t).map fun c s => nodeParent target c s.2) := by
  cases t with
  | hole => exact absurd rfl ht
  | leaf i op => rfl
  | unary i op c =>
    rw [nodeParent, presentChildren_unary,
      callOn_eq_map fun c (s : RaNode × Int) => nodeParent target c s.2]
  | join i join l r =>
    rw [nodeParent, presentChildren_join,
      callOn_eq_map fun c (s : RaNode × Int) => nodeParent target c s.2,
      callOn_eq_map fun c (s : RaNode × Int) => nodeParent target c s.2, List.map_append]

theorem getNodeParent_children (t : RaNode) :
    getNodeParent target t =
      match t.childNodes.findIdx? fun c => c.id? = some target with
      | some i => some (t, i)
      | none => (presentChildren t).findSome? (getNodeParent target) := by
  have hchild (c : RaNode) : (if c.isHole then [] else [c]).findSome? (getNodeParent target) =
      getNodeParent target c := by
    by_cases hc : c.isHole = true
    · cases c <;> first | rfl | cases hc
    · rw [if_neg hc, List.findSome?_singleton]
  cases t with
  | hole => rfl
  | leaf i op => rfl
  | unary i op c =>
    rw [presentChildren_unary, hchild, getNodeParent]
    cases c with
    | hole => rfl
    | _ =>
      simp only [RaNode.childNodes, List.findIdx?_cons, List.findIdx?_nil]
      split <;> simp_all
  | join i join l r =>
    rw [presentChildren_join, List.findSome?_append, hchild, hchild]
    by_cases hl : l = .hole
    · subst hl
      rw [getNodeParent]
      cases r with
      | hole => rfl
      | _ =>
        simp only [RaNode.childNodes, List.findIdx?_cons, List.findIdx?_nil]
        split <;> simp_all [getNodeParent]
    · have hnodes : (RaNode.join i join l r).childNodes = [l, r] := by
        cases l <;> first | exact absurd rfl hl | (cases r <;> rfl)
      rw [getNodeParent, hnodes]
      · simp only [List.findIdx?_cons, List.findIdx?_nil]
        split_ifs <;> simp_all
      · exact hl

/-- The search as the rest of the development uses it. When it fails, `child_index` is as
before. -/
theorem nodeParent_cases (t : RaNode) (childIndex : Int) :
    (∃ parent, ∃ i : Nat, getNodeParent target t = some (parent, i) ∧
        nodeParent target t childIndex = (true, parent, (i : Int))) ∨
      getNodeParent target t = none ∧
        ∃ it, nodeParent target t childIndex = (false, it, childIndex) := by
  induction t using induction_children generalizing childIndex with
  | h t ih =>
    by_cases ht : t = .hole
    · subst ht
      exact .inr ⟨rfl, .hole, rfl⟩
    rw [getNodeParent_children, nodeParent_eq target ht, searchChildren]
    cases hindex : t.childNodes.findIdx? fun c => c.id? = some target with
    | some i => exact .inl ⟨t, i, rfl, rfl⟩
    | none =>
      -- the calls for the children, from any reference
      have hloop (cs : List RaNode) (it : RaNode) (hcs : ∀ c ∈ cs, c ∈ presentChildren t) :
          (∃ parent, ∃ i : Nat, cs.findSome? (getNodeParent target) = some (parent, i) ∧
              tryAll (cs.map fun c s => nodeParent target c s.2) (false, it, childIndex) =
                (true, parent, (i : Int))) ∨
            cs.findSome? (getNodeParent target) = none ∧
              ∃ it', tryAll (cs.map fun c s => nodeParent target c s.2) (false, it, childIndex) =
                (false, it', childIndex) := by
        induction cs generalizing it with
        | nil => exact .inr ⟨rfl, it, rfl⟩
        | cons c cs ihcs =>
          obtain ⟨hc, hcs⟩ := List.forall_mem_cons.mp hcs
          rw [List.map_cons, tryAll_cons, if_neg Bool.false_ne_true, List.findSome?_cons]
          rcases ih c hc childIndex with ⟨parent, i, hget, hsearch⟩ | ⟨hget, it', hsearch⟩
          · rw [hget, hsearch]
            exact .inl ⟨parent, i, rfl, tryAll_found _ rfl⟩
          · rw [hget, hsearch]
            exact ihcs it' hcs
      exact hloop (presentChildren t) t fun c hc => hc

end

/-- A tree put in the place that `get_node_parent` reports. -/
theorem splices_update {f : Frame} {K : List Frame} {t : RaNode}
    (h : Distinct (plug (f :: K) t)) (ht : t ≠ .hole) :
    Splices (path K ++ [f.index]) (plug (f :: K) t) fun x =>
      update f.id (setChild f.index x) (plug (f :: K) t) := by
  rw [← path_cons]
  refine splices_of_replacedAt ht (nodeAt_plug (f :: K) ht) fun x hx => ?_
  have hupdate : update f.id (setChild f.index x) (plug (f :: K) t) = plug (f :: K) x := by
    rw [plug_cons] at h ⊢
    rw [update_plug_of_id? h (f.id?_plug t), setChild_plug f ht, plug_cons]
  rw [hupdate]
  exact replacedAt_plug (f :: K) ht hx

/-- The root of a tree has no parent there. -/
theorem getNodeParent_root {t : RaNode} (ht : Distinct t) {target : Nat}
    (hid : t.id? = some target) : getNodeParent target t = none := by
  have hbelow (c : RaNode) (hc : c ∈ t.childNodes) : target ∉ c.ids :=
    (distinct_childNodes ht hc).2 target hid
  have hindex : (t.childNodes.findIdx? fun c => c.id? = some target) = none := by
    rw [List.findIdx?_eq_none_iff]
    intro c hc
    exact decide_eq_false fun hid => hbelow c hc (id?_mem_ids hid)
  rw [getNodeParent_children, hindex]
  show (presentChildren t).findSome? (getNodeParent target) = none
  rw [List.findSome?_eq_none_iff]
  exact fun c hc => getNodeParent_eq_none (hbelow c (mem_presentChildren.mp hc).1)

/-- `parent` is the only node of the tree with the target among its children. -/
structure IsParentAt (t : RaNode) (target : Nat) (π : List Nat) (parent : RaNode) (k : Nat) :
    Prop where
  reached : nodeAt π t = some parent
  child : ∃ s, parent.childNodes[k]? = some s ∧ s.id? = some target
  unique : ∀ ρ p j s, nodeAt ρ t = some p → p.childNodes[j]? = some s → s.id? = some target →
    ρ = π ∧ p = parent ∧ j = k

theorem nodeAt_concat {t p s : RaNode} {π : List Nat} {k : Nat} (hp : nodeAt π t = some p)
    (hs : p.childNodes[k]? = some s) : nodeAt (π ++ [k]) t = some s := by
  rw [nodeAt_append, hp, Option.bind_some, nodeAt, hs]
  rfl

theorem isParentAt_plug {f : Frame} {K : List Frame} {t : RaNode} {target : Nat}
    (h : Distinct (plug (f :: K) t)) (ht : t.id? = some target) :
    IsParentAt (plug (f :: K) t) target (path K) (f.plug t) f.index := by
  have hne : t ≠ .hole := by
    rintro rfl
    cases ht
  have hf : f.plug t ≠ .hole := by cases f <;> exact RaNode.noConfusion
  have hparent : nodeAt (path K) (plug (f :: K) t) = some (f.plug t) := nodeAt_plug K hf
  refine ⟨hparent, ⟨t, getElem?_childNodes_plug f hne, ht⟩, fun ρ p j s hp hs hid => ?_⟩
  have hpath := path_unique h (nodeAt_concat hp hs)
    (nodeAt_concat hparent (getElem?_childNodes_plug f hne)) hid ht
  obtain ⟨rfl, hj⟩ := List.append_inj' hpath rfl
  exact ⟨rfl, Option.some.inj (hp.symm.trans hparent), List.singleton_inj.mp hj⟩

/-- What `get_node_parent` does on a tree without repeated nodes: it finds the target exactly
when that is a proper descendant. The reference then points at the parent and `child_index`
is the position of the target there, so that a Selection can be put in or taken out. -/
theorem nodeParent_correct {t : RaNode} (ht : Distinct t) (target : Nat) (childIndex : Int) :
    ((nodeParent target t childIndex).1 = true ↔
        ∃ π s, π ≠ [] ∧ nodeAt π t = some s ∧ s.id? = some target) ∧
      ((nodeParent target t childIndex).1 = true → ∃ π, ∃ k i : Nat,
        (nodeParent target t childIndex).2.2 = k ∧
          (nodeParent target t childIndex).2.1.id? = some i ∧
          IsParentAt t target π (nodeParent target t childIndex).2.1 k ∧
          Splices (π ++ [k]) t fun x => update i (setChild k x) t) := by
  by_cases hmem : target ∈ t.ids
  · obtain ⟨s, hs⟩ := Option.isSome_iff_exists.mp (find?_isSome_of_mem hmem)
    obtain ⟨hid, K, rfl⟩ := exists_plug_of_find? hs
    have hne : s ≠ .hole := by
      rintro rfl
      cases hid
    cases K with
    | nil =>
      -- the target is the root
      rw [plug_nil] at ht ⊢
      rcases nodeParent_cases target s childIndex with ⟨p, i, hget, -⟩ | ⟨-, it, hsearch⟩
      · rw [getNodeParent_root ht hid] at hget
        cases hget
      · rw [hsearch]
        refine ⟨⟨nofun, fun ⟨π, s', hπ, hs', hid'⟩ => ?_⟩, nofun⟩
        exact absurd (path_unique ht hs' rfl hid' hid) hπ
    | cons f K =>
      have hget := getNodeParent_plug ht hid
      rcases nodeParent_cases target (plug (f :: K) s) childIndex with
        ⟨p, i, hget', hsearch⟩ | ⟨hget', -⟩
      · rw [hget, Option.some.injEq, Prod.mk.injEq] at hget'
        obtain ⟨rfl, rfl⟩ := hget'
        rw [hsearch]
        refine ⟨⟨fun _ => ⟨path (f :: K), s, by simp, nodeAt_plug (f :: K) hne, hid⟩,
          fun _ => rfl⟩, fun _ => ⟨path K, f.index, f.id, rfl, f.id?_plug s, ?_, ?_⟩⟩
        · exact isParentAt_plug ht hid
        · exact splices_update ht hne
      · rw [hget] at hget'
        cases hget'
  · rcases nodeParent_cases target t childIndex with ⟨p, i, hget, -⟩ | ⟨-, it, hsearch⟩
    · rw [getNodeParent_eq_none hmem] at hget
      cases hget
    · rw [hsearch]
      exact ⟨⟨nofun, fun ⟨π, s, _, hs, hid⟩ => absurd (mem_ids_of_nodeAt hs hid) hmem⟩, nofun⟩

/-- The relation in the derived table has the projection for a parent. -/
theorem nodeParent_withDerivedTable : ∃ π, ∃ k i : Nat,
    (nodeParent 5 withDerivedTable (-1)).2.1.id? = some i ∧
      IsParentAt withDerivedTable 5 π (nodeParent 5 withDerivedTable (-1)).2.1 k := by
  have hdistinct : Distinct withDerivedTable := by
    show withDerivedTable.ids.Nodup
    decide
  obtain ⟨π, k, i, -, hid, hparent, -⟩ :=
    (nodeParent_correct hdistinct 5 (-1)).2 (by decide)
  exact ⟨π, k, i, hid, hparent⟩

end SqlOptimizer.Tree.ReferenceSearch
