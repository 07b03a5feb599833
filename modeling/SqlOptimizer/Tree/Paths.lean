import SqlOptimizer.Tree.Walks

/-!
Paths from the top of a tree: the positions in `childNodes` one after the other. What
stands at a path is compared before and after another tree is put at one position.
-/

set_option autoImplicit false
set_option relaxedAutoImplicit false

namespace SqlOptimizer.Tree.Paths

open Algebra.RelationalAlgebra
open Frames Walks

/-- The node at a path. -/
def nodeAt : List Nat → RaNode → Option RaNode
  | [], t => some t
  | k :: path, t => t.childNodes[k]?.bind (nodeAt path)

/-- The object itself, without its children. -/
def operator : RaNode → RaNode
  | .unary i op _ => .unary i op .hole
  | .join i join _ _ => .join i join .hole .hole
  | t => t

/-- The path of a position. -/
def path (K : List Frame) : List Nat := (K.map Frame.index).reverse

@[simp] theorem path_nil : path [] = [] := rfl

@[simp] theorem path_cons (f : Frame) (K : List Frame) : path (f :: K) = path K ++ [f.index] := by
  simp [path]

theorem nodeAt_append (path path' : List Nat) (t : RaNode) :
    nodeAt (path ++ path') t = (nodeAt path t).bind (nodeAt path') := by
  induction path generalizing t with
  | nil => rfl
  | cons k path ih =>
    show t.childNodes[k]?.bind (nodeAt (path ++ path')) = _
    rw [funext ih, nodeAt, Option.bind_assoc]

/-- The child in a frame stands at the position of the frame. -/
theorem getElem?_childNodes_plug (f : Frame) {t : RaNode} (ht : t ≠ .hole) :
    (f.plug t).childNodes[f.index]? = some t := by
  cases f with
  | unary i op => cases t <;> first | rfl | exact absurd rfl ht
  | left i join r => cases t <;> first | rfl | exact absurd rfl ht
  | right i join l => cases l <;> cases t <;> first | rfl | exact absurd rfl ht

/-- Nothing else depends on the child. -/
theorem getElem?_childNodes_plug_ne {f : Frame} {t x : RaNode} (ht : t ≠ .hole) (hx : x ≠ .hole)
    {k : Nat} (hk : k ≠ f.index) :
    (f.plug x).childNodes[k]? = (f.plug t).childNodes[k]? := by
  cases f with
  | unary i op =>
    obtain ⟨k, rfl⟩ := Nat.exists_eq_succ_of_ne_zero hk
    cases t <;> cases x <;> rfl
  | left i join r =>
    obtain ⟨k, rfl⟩ := Nat.exists_eq_succ_of_ne_zero hk
    cases t <;> cases x <;> first | rfl | exact absurd rfl ht | exact absurd rfl hx
  | right i join l =>
    cases l with
    | hole =>
      obtain ⟨k, rfl⟩ := Nat.exists_eq_succ_of_ne_zero hk
      cases t <;> cases x <;> rfl
    | _ => rcases k with - | - | k <;> first | rfl | exact absurd rfl hk

theorem nodeAt_plug (K : List Frame) {t : RaNode} (ht : t ≠ .hole) :
    nodeAt (path K) (plug K t) = some t := by
  induction K generalizing t with
  | nil => rfl
  | cons f K ih =>
    have hf : f.plug t ≠ .hole := by cases f <;> exact RaNode.noConfusion
    rw [path_cons, nodeAt_append, plug_cons, ih hf, Option.bind_some, nodeAt,
      getElem?_childNodes_plug f ht]
    rfl

/-- A child is the child in a frame. -/
theorem exists_plug_of_childNodes {t c : RaNode} {k : Nat} (hc : c ≠ .hole)
    (h : t.childNodes[k]? = some c) : ∃ f : Frame, t = f.plug c ∧ f.index = k := by
  cases t with
  | hole => cases h
  | leaf i op => cases h
  | unary i op c' =>
    cases c' with
    | hole => cases h
    | _ =>
      rcases k with - | k
      · cases h
        exact ⟨.unary i op, rfl, rfl⟩
      · cases h
  | join i join l r =>
    cases l with
    | hole =>
      cases r with
      | hole => cases h
      | _ =>
        rcases k with - | k
        · cases h
          exact ⟨.right i join .hole, rfl, rfl⟩
        · cases h
    | _ =>
      rcases k with - | - | k
      · cases h
        exact ⟨.left i join r, rfl, rfl⟩
      · cases h
        exact ⟨.right i join _, rfl, rfl⟩
      · cases h

/-- A node at a path has the position with that path. -/
theorem exists_plug_of_nodeAt {π : List Nat} {t s : RaNode} (hs : s ≠ .hole)
    (h : nodeAt π t = some s) : ∃ K, t = plug K s ∧ path K = π := by
  induction π generalizing t with
  | nil =>
    cases h
    exact ⟨[], rfl, rfl⟩
  | cons k π ih =>
    obtain ⟨c, hc, h⟩ := Option.bind_eq_some_iff.mp h
    obtain ⟨K, rfl, rfl⟩ := ih h
    have hne : plug K s ≠ .hole := by
      intro hhole
      rw [hhole] at h
      cases hK : path K with
      | nil =>
        rw [hK] at h
        exact hs (Option.some.inj h).symm
      | cons k π => rw [hK] at h; cases h
    obtain ⟨f, rfl, rfl⟩ := exists_plug_of_childNodes hne hc
    exact ⟨K ++ [f], by simp, by simp [path]⟩

/-! ### Another tree at a position -/

/-- The tree `t'` has `x` where `t` has another node, and agrees with `t` elsewhere: no
object outside of that path has moved or changed. -/
structure ReplacedAt (π : List Nat) (x t t' : RaNode) : Prop where
  below : ∀ q, nodeAt (π ++ q) t' = nodeAt q x
  elsewhere : ∀ q, ¬ π <+: q → (nodeAt q t').map operator = (nodeAt q t).map operator

theorem ReplacedAt.plug_frame (f : Frame) {π : List Nat} {x t t' : RaNode} (ht : t ≠ .hole)
    (ht' : t' ≠ .hole) (h : ReplacedAt π x t t') :
    ReplacedAt (f.index :: π) x (f.plug t) (f.plug t') where
  below q := by
    rw [List.cons_append, nodeAt, getElem?_childNodes_plug f ht', Option.bind_some, h.below]
  elsewhere q hq := by
    cases q with
    | nil => cases f <;> rfl
    | cons k q =>
      by_cases hk : k = f.index
      · subst hk
        rw [nodeAt, nodeAt, getElem?_childNodes_plug f ht', getElem?_childNodes_plug f ht]
        apply h.elsewhere
        exact fun hπ => hq (List.cons_prefix_cons.mpr ⟨rfl, hπ⟩)
      · rw [nodeAt, nodeAt, getElem?_childNodes_plug_ne ht ht' hk]

/-- A position with another tree in it. -/
theorem replacedAt_plug (K : List Frame) {x t : RaNode} (ht : t ≠ .hole) (hx : x ≠ .hole) :
    ReplacedAt (path K) x (plug K t) (plug K x) := by
  have key (π : List Nat) (t t' : RaNode) (ht : t ≠ .hole) (ht' : t' ≠ .hole)
      (h : ReplacedAt π x t t') : ReplacedAt (path K ++ π) x (plug K t) (plug K t') := by
    induction K generalizing π t t' with
    | nil => exact h
    | cons f K ih =>
      have hf (s : RaNode) : f.plug s ≠ .hole := by cases f <;> exact RaNode.noConfusion
      rw [path_cons, List.append_assoc]
      exact ih _ _ _ (hf t) (hf t') (h.plug_frame f ht ht')
  have hself : ReplacedAt [] x t x := ⟨fun q => rfl, fun q hq => absurd q.nil_prefix hq⟩
  simpa using key [] t x ht hx hself

/-- `put` puts a tree in the place of the node at the path. Nothing moves outside of that
place, and a Selection put over the node, or taken out there, moves what is below by one
position. -/
structure Splices (π : List Nat) (t : RaNode) (put : RaNode → RaNode) : Prop where
  replaced : ∀ x, x ≠ .hole → ReplacedAt π x t (put x)
  insert : ∀ n p s q, nodeAt π t = some s →
    nodeAt (π ++ 0 :: q) (put (.selection n p s)) = nodeAt (π ++ q) t
  remove : ∀ n p c q, c ≠ .hole → nodeAt π t = some (.selection n p c) →
    nodeAt (π ++ q) (put c) = nodeAt (π ++ 0 :: q) t

theorem nodeAt_selection {n : Nat} {p : Expr} {c : RaNode} (hc : c ≠ .hole) (q : List Nat) :
    nodeAt (0 :: q) (.selection n p c) = nodeAt q c := by
  have hchild := getElem?_childNodes_plug (.unary n (.selection p)) hc
  rw [nodeAt]
  exact congrArg (Option.bind · (nodeAt q)) hchild

theorem splices_of_replacedAt {π : List Nat} {t s : RaNode} {put : RaNode → RaNode}
    (hs : s ≠ .hole) (hπ : nodeAt π t = some s)
    (h : ∀ x, x ≠ .hole → ReplacedAt π x t (put x)) : Splices π t put where
  replaced := h
  insert n p s' q hs' := by
    obtain rfl : s = s' := Option.some.inj (hπ.symm.trans hs')
    rw [(h _ RaNode.noConfusion).below, nodeAt_selection hs, nodeAt_append, hπ, Option.bind_some]
  remove n p c q hc hs' := by
    rw [(h c hc).below, nodeAt_append, hs', Option.bind_some, nodeAt_selection hc]

/-! ### Distinct nodes have distinct paths -/

theorem ids_eq_childNodes {t : RaNode} (ht : t ≠ .hole) :
    ∃ i, t.id? = some i ∧ t.ids = i :: t.childNodes.flatMap RaNode.ids := by
  cases t with
  | hole => exact absurd rfl ht
  | leaf i op => exact ⟨i, rfl, rfl⟩
  | unary i op c => cases c <;> exact ⟨i, rfl, by simp [RaNode.ids, RaNode.childNodes]⟩
  | join i join l r =>
    cases l <;> cases r <;> exact ⟨i, rfl, by simp [RaNode.ids, RaNode.childNodes]⟩

theorem mem_ids_of_nodeAt {π : List Nat} {t s : RaNode} (h : nodeAt π t = some s) {i : Nat}
    (hs : s.id? = some i) : i ∈ t.ids := by
  have hne : s ≠ .hole := by
    rintro rfl
    cases hs
  obtain ⟨K, rfl, -⟩ := exists_plug_of_nodeAt hne h
  exact mem_ids_plug.mpr (.inr (id?_mem_ids hs))

/-- The children at two positions share no node. -/
theorem eq_of_mem_childNodes {t c c' : RaNode} (ht : Distinct t) {k k' i : Nat}
    (hc : t.childNodes[k]? = some c) (hc' : t.childNodes[k']? = some c') (hi : i ∈ c.ids)
    (hi' : i ∈ c'.ids) : k = k' := by
  have hne : t ≠ .hole := by
    rintro rfl
    cases hc
  obtain ⟨j, -, hids⟩ := ids_eq_childNodes hne
  rw [Distinct, hids, List.nodup_cons, List.nodup_flatMap] at ht
  obtain ⟨hk, rfl⟩ := List.getElem?_eq_some_iff.mp hc
  obtain ⟨hk', rfl⟩ := List.getElem?_eq_some_iff.mp hc'
  have hpairwise := List.pairwise_iff_getElem.mp ht.2.2
  rcases Nat.lt_trichotomy k k' with hlt | heq | hgt
  · exact absurd hi' (hpairwise k k' hk hk' hlt hi)
  · exact heq
  · exact absurd hi (hpairwise k' k hk' hk hgt hi')

theorem distinct_childNodes {t c : RaNode} (ht : Distinct t) (hc : c ∈ t.childNodes) :
    Distinct c ∧ ∀ i, t.id? = some i → i ∉ c.ids := by
  have hne : t ≠ .hole := by
    rintro rfl
    cases hc
  obtain ⟨j, hj, hids⟩ := ids_eq_childNodes hne
  rw [Distinct, hids, List.nodup_cons, List.nodup_flatMap] at ht
  refine ⟨ht.2.1 c hc, fun i hi hmem => ht.1 ?_⟩
  obtain rfl : j = i := Option.some.inj (hj.symm.trans hi)
  exact List.mem_flatMap.mpr ⟨c, hc, hmem⟩

/-- In a tree without repeated addresses a node has one path. -/
theorem path_unique {t s s' : RaNode} (ht : Distinct t) {π ρ : List Nat} {i : Nat}
    (h : nodeAt π t = some s) (h' : nodeAt ρ t = some s') (hs : s.id? = some i)
    (hs' : s'.id? = some i) : π = ρ := by
  induction π generalizing t ρ with
  | nil =>
    cases ρ with
    | nil => rfl
    | cons k' ρ =>
      cases h
      obtain ⟨c', hc', h'⟩ := Option.bind_eq_some_iff.mp h'
      obtain ⟨-, hroot⟩ := distinct_childNodes ht (List.mem_of_getElem? hc')
      exact absurd (mem_ids_of_nodeAt h' hs') (hroot i hs)
  | cons k π ih =>
    obtain ⟨c, hc, hbelow⟩ := Option.bind_eq_some_iff.mp h
    obtain ⟨hdistinct, hroot⟩ := distinct_childNodes ht (List.mem_of_getElem? hc)
    cases ρ with
    | nil =>
      cases h'
      exact absurd (mem_ids_of_nodeAt hbelow hs) (hroot i hs')
    | cons k' ρ =>
      obtain ⟨c', hc', h'⟩ := Option.bind_eq_some_iff.mp h'
      obtain rfl := eq_of_mem_childNodes ht hc hc' (mem_ids_of_nodeAt hbelow hs)
        (mem_ids_of_nodeAt h' hs')
      obtain rfl : c = c' := Option.some.inj (hc.symm.trans hc')
      rw [ih hdistinct hbelow h']

end SqlOptimizer.Tree.Paths
