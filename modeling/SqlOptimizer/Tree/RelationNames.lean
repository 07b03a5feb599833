import SqlOptimizer.Tree.PushDown
import SqlOptimizer.Logic.Runs

/-!
The names of the relations in a tree. Moving nodes around brings no new names into it.
-/

set_option autoImplicit false
set_option relaxedAutoImplicit false

namespace SqlOptimizer.Tree.RelationNames

open Algebra.RelationalAlgebra
open Frames Walks PushDown

/-- The names of the relations, in the order of a depth-first walk. -/
def relationNames : RaNode → List String
  | .hole => []
  | .leaf _ (.relation name _) => [name]
  | .leaf _ _ => []
  | .unary _ _ c => relationNames c
  | .join _ _ l r => relationNames l ++ relationNames r

/-- All relation names of the tree satisfy `K`. -/
def NamedIn (K : String → Prop) (t : RaNode) : Prop := ∀ name ∈ relationNames t, K name

section

variable {K : String → Prop} {t c l r : RaNode} {i : Nat}

@[simp] theorem namedIn_hole : NamedIn K .hole := by simp [NamedIn, relationNames]

@[simp] theorem namedIn_relation {name aliasName : String} :
    NamedIn K (.relation i name aliasName) ↔ K name := by simp [NamedIn, relationNames]

@[simp] theorem namedIn_unary {op : UnaryOp} : NamedIn K (.unary i op c) ↔ NamedIn K c := Iff.rfl

@[simp] theorem namedIn_join {join : Join} :
    NamedIn K (.join i join l r) ↔ NamedIn K l ∧ NamedIn K r := by
  simp only [NamedIn, relationNames, List.mem_append]
  constructor
  · intro h
    exact ⟨fun n hn => h n (.inl hn), fun n hn => h n (.inr hn)⟩
  · rintro ⟨hl, hr⟩ n (hn | hn)
    · exact hl n hn
    · exact hr n hn

theorem NamedIn.mono {K' : String → Prop} (h : NamedIn K t) (hK : ∀ name, K name → K' name) :
    NamedIn K' t :=
  fun name hname => hK name (h name hname)

/-- The subtree at an address. -/
theorem NamedIn.find? {s : RaNode} (h : NamedIn K t) (hfind : find? i t = some s) :
    NamedIn K s := by
  induction t with
  | hole => cases hfind
  | leaf j op =>
    simp only [Frames.find?, Option.ite_none_right_eq_some, Option.some.injEq] at hfind
    exact hfind.2 ▸ h
  | unary j op c ih =>
    rw [Frames.find?] at hfind
    split at hfind
    · exact Option.some.inj hfind ▸ h
    · exact ih h hfind
  | join j join l r ihl ihr =>
    rw [Frames.find?] at hfind
    split at hfind
    · exact Option.some.inj hfind ▸ h
    · rw [namedIn_join] at h
      rcases Option.or_eq_some_iff.mp hfind with hl | ⟨-, hr⟩
      · exact ihl h.1 hl
      · exact ihr h.2 hr

theorem NamedIn.update {f : RaNode → RaNode} (h : NamedIn K t)
    (hf : ∀ s, NamedIn K s → NamedIn K (f s)) : NamedIn K (update i f t) := by
  induction t with
  | hole => exact h
  | leaf j op =>
    rw [Frames.update]
    split
    · exact hf _ h
    · exact h
  | unary j op c ih =>
    rw [Frames.update]
    split
    · exact hf _ h
    · exact ih h
  | join j join l r ihl ihr =>
    rw [Frames.update]
    split
    · exact hf _ h
    · rw [namedIn_join] at h ⊢
      exact ⟨ihl h.1, ihr h.2⟩

theorem NamedIn.setChild {index : Nat} (h : NamedIn K t) (hc : NamedIn K c) :
    NamedIn K (setChild index c t) := by
  cases t with
  | hole => exact h
  | leaf j op => exact h
  | unary j op c' => exact hc
  | join j join l r =>
    rw [namedIn_join] at h
    cases l with
    | hole => simpa [Walks.setChild] using hc
    | _ =>
      simp only [Walks.setChild]
      split
      · exact namedIn_join.mpr ⟨hc, h.2⟩
      · exact namedIn_join.mpr ⟨h.1, hc⟩

theorem NamedIn.childNodes (h : NamedIn K t) (hc : c ∈ t.childNodes) : NamedIn K c := by
  cases t with
  | hole => cases hc
  | leaf j op => cases hc
  | unary j op c' =>
    cases c' with
    | hole => cases hc
    | _ => exact List.mem_singleton.mp hc ▸ h
  | join j join l r =>
    rw [namedIn_join] at h
    have hmem : c = l ∨ c = r := by
      cases l <;> cases r <;> simp_all [RaNode.childNodes]
    rcases hmem with rfl | rfl
    · exact h.1
    · exact h.2

end

section

variable {K : String → Prop}

theorem NamedIn.findNodeWhereRelationsDefined {rels : List String} {t it : RaNode}
    (h : NamedIn K t) (hit : findNodeWhereRelationsDefined rels t = some it) : NamedIn K it := by
  induction t generalizing it with
  | hole => cases hit
  | leaf j op =>
    simp only [PushDown.findNodeWhereRelationsDefined, Option.ite_none_right_eq_some,
      Option.some.injEq] at hit
    exact hit.2 ▸ h
  | unary j op c ih =>
    simp only [PushDown.findNodeWhereRelationsDefined, Option.ite_none_right_eq_some,
      Option.some.injEq] at hit
    obtain ⟨-, rfl⟩ := hit
    cases hc : PushDown.findNodeWhereRelationsDefined rels c with
    | none => exact h
    | some it => exact ih h hc
  | join j join l r ihl ihr =>
    simp only [PushDown.findNodeWhereRelationsDefined, Option.ite_none_right_eq_some,
      Option.some.injEq] at hit
    obtain ⟨-, rfl⟩ := hit
    cases hlr : (PushDown.findNodeWhereRelationsDefined rels l).or
        (PushDown.findNodeWhereRelationsDefined rels r) with
    | none => exact h
    | some it =>
      rw [namedIn_join] at h
      rcases Option.or_eq_some_iff.mp hlr with hl | ⟨-, hr⟩
      · exact ihl h.1 hl
      · exact ihr h.2 hr

private theorem namedIn_position {cp : Bool} {root it c : RaNode} {e : Expr} {parent index : Nat}
    (h : NamedIn K it) (hpos : insertPosition cp root it e = some (.newSelection parent index c)) :
    NamedIn K c := by
  have habove (hpos : positionAbove root it = some (.newSelection parent index c)) :
      NamedIn K c := by
    simp only [positionAbove, Option.bind_eq_some_iff] at hpos
    obtain ⟨i, -, r, -, hpos⟩ := hpos
    split at hpos
    · cases hpos
    · obtain ⟨j, -, hj⟩ := Option.map_eq_some_iff.mp hpos
      cases hj
      exact h
  cases it with
  | join i join l r =>
    rw [insertPosition] at hpos
    split at hpos
    · cases hpos
    · exact habove hpos
  | _ => exact habove hpos

private theorem namedIn_attach {e : Expr} {t : RaTree} {pos : Position} (h : NamedIn K t.root)
    (hpos : ∀ parent index c, pos = .newSelection parent index c → NamedIn K c) :
    NamedIn K (attach e t pos).root := by
  cases pos with
  | join i =>
    refine h.update fun s hs => ?_
    cases s <;> exact hs
  | selection i =>
    refine h.update fun s hs => ?_
    cases s with
    | unary j op c => cases op <;> exact hs
    | _ => exact hs
  | newSelection parent index c =>
    exact h.update fun s hs => hs.setChild (hpos parent index c rfl)

/-- What a step of `push_down_predicates` leaves as it was. -/
theorem step_frame {cp : Bool} {t t' : RaTree} {s : Step} (h : step cp t s = some t') :
    t'.ctes = t.ctes ∧ t'.counter = t.counter ∧ t.nextId ≤ t'.nextId := by
  cases s with
  | place i e rels =>
    obtain ⟨pos, -, rfl⟩ := Option.map_eq_some_iff.mp h
    cases pos with
    | newSelection parent index c => exact ⟨rfl, rfl, Nat.le_succ _⟩
    | _ => exact ⟨rfl, rfl, Nat.le_refl _⟩
  | removeIfEmpty i =>
    rw [step] at h
    split at h
    · simp only [Option.bind_eq_some_iff, Option.map_eq_some_iff] at h
      obtain ⟨-, -, -, -, rfl⟩ := h
      exact ⟨rfl, rfl, Nat.le_refl _⟩
    · cases h
      exact ⟨rfl, rfl, Nat.le_refl _⟩
    · cases h

theorem NamedIn.step {cp : Bool} {t t' : RaTree} {s : Step} (h : NamedIn K t.root)
    (hs : step cp t s = some t') : NamedIn K t'.root := by
  cases s with
  | place i e rels =>
    obtain ⟨pos, hpos, rfl⟩ := Option.map_eq_some_iff.mp hs
    refine namedIn_attach h fun parent index c hc => ?_
    subst hc
    rw [stepPosition] at hpos
    split at hpos
    · next j p child hfind =>
      rw [position] at hpos
      split at hpos
      · next it hit =>
        have hsel : NamedIn K (.selection j p child) := h.find? hfind
        have hchild : NamedIn K child := hsel
        exact namedIn_position (hchild.findNodeWhereRelationsDefined hit) hpos
      · cases hpos
    · cases hpos
  | removeIfEmpty i =>
    rw [PushDown.step] at hs
    split at hs
    · next j child hfind =>
      simp only [Option.bind_eq_some_iff, Option.map_eq_some_iff] at hs
      obtain ⟨-, -, -, -, rfl⟩ := hs
      have hsel : NamedIn K (.selection j .nullptr child) := h.find? hfind
      exact h.update fun s hs => hs.setChild hsel
    · cases hs
      exact h
    · cases hs

@[simp] theorem relationNames_detachPredicates (t : RaNode) :
    relationNames (detachPredicates t) = relationNames t := by
  induction t with
  | hole => rfl
  | leaf i op => rfl
  | unary i op c ih => cases op <;> exact ih
  | join i join l r ihl ihr => simp [detachPredicates, relationNames, ihl, ihr]

/-- `push_down_predicates` leaves the CTEs and the counter, and gives further addresses. -/
theorem pushDownPredicates_frame {cp : Bool} {t t' : RaTree}
    (hrun : pushDownPredicates cp t = some t') :
    t'.ctes = t.ctes ∧ t'.counter = t.counter ∧ t.nextId ≤ t'.nextId := by
  obtain ⟨ss, -, hloop⟩ := Option.bind_eq_some_iff.mp hrun
  refine Logic.Runs.run_invariant
    (I := fun t' => t'.ctes = t.ctes ∧ t'.counter = t.counter ∧ t.nextId ≤ t'.nextId) ?_
    hloop ⟨rfl, rfl, Nat.le_refl _⟩
  rintro s t₁ t₂ ⟨hctes, hcounter, hnext⟩ hstep
  have hframe := step_frame hstep
  exact ⟨hframe.1.trans hctes, hframe.2.1.trans hcounter, Nat.le_trans hnext hframe.2.2⟩

/-- `push_down_predicates` brings no relation into the tree. -/
theorem NamedIn.pushDownPredicates {cp : Bool} {t t' : RaTree} (h : NamedIn K t.root)
    (hrun : pushDownPredicates cp t = some t') : NamedIn K t'.root := by
  obtain ⟨ss, -, hloop⟩ := Option.bind_eq_some_iff.mp hrun
  refine Logic.Runs.run_invariant (I := fun t' => NamedIn K t'.root) ?_ hloop ?_
  · exact fun s t₁ t₂ hnames hstep => hnames.step hstep
  · simpa [NamedIn, detached] using h

end

end SqlOptimizer.Tree.RelationNames
