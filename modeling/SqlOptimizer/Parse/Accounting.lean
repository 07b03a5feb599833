import SqlOptimizer.Parse.Supported

/-!
Accounting rules for parser actions. An action builds what the AST nodes `ds` ask for: the
parts of its result and of the new CTEs are those of its input and a bill with fresh
addresses and fresh markers, every marker used once, and the items of `ds`. It fails,
or leaves a place empty, only when `ds` cannot be built.
-/

set_option autoImplicit false
set_option relaxedAutoImplicit false

namespace SqlOptimizer.Parse.Accounting

open Algebra.RelationalAlgebra
open PgQuery Builder Inventory Supported

variable {α β : Type}

/-- The bill `D` for the AST nodes `ds` between two states of the parser. -/
structure Accounts (ds : List PgNode) (s s' : ParserState) (D : Parts) : Prop where
  counter_le : s.counter ≤ s'.counter
  nextId_le : s.nextId ≤ s'.nextId
  ids_nodup : D.ids.Nodup
  ids_mem : ∀ i ∈ D.ids, s.nextId ≤ i ∧ i < s'.nextId
  joinMarkers_nodup : D.joinMarkers.Nodup
  joinMarkers_mem : ∀ m ∈ D.joinMarkers, s.counter < m ∧ m ≤ s'.counter
  markers_eq : ds.all isBuildableNode = true → D.markers = D.joinMarkers
  whole : D.holes = 0 ↔ ds.all isBuildableNode = true
  items_eq : ds.all isBuildableNode = true → D.items = ds.filterMap itemOf

theorem Accounts.refl (s : ParserState) : Accounts [] s s 0 where
  counter_le := le_rfl
  nextId_le := le_rfl
  ids_nodup := by simp
  ids_mem := by simp
  joinMarkers_nodup := by simp
  joinMarkers_mem := by simp
  markers_eq _ := rfl
  whole := by simp
  items_eq := by simp

/-- Bills of consecutive actions add up: their numbers lie in consecutive intervals. -/
theorem Accounts.trans {ds es : List PgNode} {s s₁ s' : ParserState} {D E : Parts}
    (h : Accounts ds s s₁ D) (h' : Accounts es s₁ s' E) : Accounts (ds ++ es) s s' (D + E) where
  counter_le := h.counter_le.trans h'.counter_le
  nextId_le := h.nextId_le.trans h'.nextId_le
  ids_nodup := by
    refine Multiset.nodup_add.mpr ⟨h.ids_nodup, h'.ids_nodup, Multiset.disjoint_left.mpr ?_⟩
    intro i hi hi'
    have := h.ids_mem i hi
    have := h'.ids_mem i hi'
    omega
  ids_mem i hi := by
    have := h.nextId_le
    have := h'.nextId_le
    rcases Multiset.mem_add.mp hi with hi | hi
    · have := h.ids_mem i hi
      omega
    · have := h'.ids_mem i hi
      omega
  joinMarkers_nodup := by
    refine Multiset.nodup_add.mpr
      ⟨h.joinMarkers_nodup, h'.joinMarkers_nodup, Multiset.disjoint_left.mpr ?_⟩
    intro i hi hi'
    have := h.joinMarkers_mem i hi
    have := h'.joinMarkers_mem i hi'
    omega
  joinMarkers_mem i hi := by
    have := h.counter_le
    have := h'.counter_le
    rcases Multiset.mem_add.mp hi with hi | hi
    · have := h.joinMarkers_mem i hi
      omega
    · have := h'.joinMarkers_mem i hi
      omega
  markers_eq hgood := by
    rw [List.all_append, Bool.and_eq_true] at hgood
    simp [h.markers_eq hgood.1, h'.markers_eq hgood.2]
  whole := by simp [h.whole, h'.whole]
  items_eq hgood := by
    rw [List.all_append, Bool.and_eq_true] at hgood
    simp [h.items_eq hgood.1, h'.items_eq hgood.2]

/-- Parts that are dropped leave an empty place, so `es` cannot have been buildable. -/
theorem Accounts.drop {ds es : List PgNode} {s s' : ParserState} {D E : Parts}
    (h : Accounts ds s s' (D + E)) (hes : es.all isBuildableNode = false) :
    Accounts es s s' (parts .hole + E) where
  counter_le := h.counter_le
  nextId_le := h.nextId_le
  ids_nodup := by simpa [parts] using (Multiset.nodup_add.mp h.ids_nodup).2.1
  ids_mem i hi := h.ids_mem i (Multiset.mem_add.mpr (.inr (by simpa [parts] using hi)))
  joinMarkers_nodup := by simpa [parts] using (Multiset.nodup_add.mp h.joinMarkers_nodup).2.1
  joinMarkers_mem m hm :=
    h.joinMarkers_mem m (Multiset.mem_add.mpr (.inr (by simpa [parts] using hm)))
  markers_eq hgood := by simp [hes] at hgood
  whole := by simp [parts, hes]
  items_eq hgood := by simp [hes] at hgood

/-- Whatever the action builds from parts `start` is accounted for. -/
def Sound (ds : List PgNode) (s : ParserState) (x : Parser α) (start : Parts)
    (result : α → Parts) (post : α → ParserState → Prop) : Prop :=
  ∀ r s', x s = some (r, s') → post r s' ∧ ∃ D new, Accounts ds s s' D ∧
    s'.ctes = s.ctes ++ new ∧ result r + allParts new = start + D

/-- The action builds what `ds` ask for, from parts `start`. -/
def Builds (ds : List PgNode) (s : ParserState) (x : Parser α) (start : Parts)
    (result : α → Parts) (post : α → ParserState → Prop) : Prop :=
  Sound ds s x start result post ∧ (ds.all isBuildableNode = true → (x s).isSome = true)

namespace Builds

variable {ds es : List PgNode} {s : ParserState} {start : Parts} {result : α → Parts}
  {post : α → ParserState → Prop}

theorem pure {a : α} (ha : result a = start) (hpost : post a s) :
    Builds [] s (pure a) start result post := by
  refine ⟨fun r s' h => ?_, fun _ => rfl⟩
  obtain ⟨rfl, rfl⟩ := Prod.mk.inj (pure_eq_some.mp h)
  exact ⟨hpost, 0, [], .refl s', by simp, by simp [ha]⟩

/-- Two actions after each other; the second may rely on what can be built so far. -/
theorem bind_of {x : Parser α} {f : α → Parser β} {result' : β → Parts}
    {post' : β → ParserState → Prop} (hx : Builds ds s x start result post)
    (hf : ∀ a s₁, post a s₁ → s.nextId ≤ s₁.nextId → Sound es s₁ (f a) (result a) result' post')
    (hp : ∀ a s₁, post a s₁ → s.nextId ≤ s₁.nextId → ds.all isBuildableNode = true →
      es.all isBuildableNode = true → (f a s₁).isSome = true) :
    Builds (ds ++ es) s (x >>= f) start result' post' := by
  constructor
  · intro r s' h
    obtain ⟨a, s₁, ha, hr⟩ := bind_eq_some.mp h
    obtain ⟨hpost, D, new, hD, hnew, hparts⟩ := hx.1 a s₁ ha
    obtain ⟨hpost', E, new', hE, hnew', hparts'⟩ := hf a s₁ hpost hD.nextId_le r s' hr
    refine ⟨hpost', D + E, new ++ new', hD.trans hE, by simp [hnew, hnew'], ?_⟩
    calc result' r + allParts (new ++ new') = result' r + allParts new' + allParts new := by
          rw [allParts_append]
          abel
      _ = result a + allParts new + E := by
          rw [hparts']
          abel
      _ = start + (D + E) := by rw [hparts, add_assoc]
  · intro hgood
    rw [List.all_append, Bool.and_eq_true] at hgood
    obtain ⟨⟨a, s₁⟩, ha⟩ := Option.isSome_iff_exists.mp (hx.2 hgood.1)
    obtain ⟨hpost, D, new, hD, -, -⟩ := hx.1 a s₁ ha
    obtain ⟨r, hr⟩ := Option.isSome_iff_exists.mp (hp a s₁ hpost hD.nextId_le hgood.1 hgood.2)
    exact Option.isSome_iff_exists.mpr ⟨r, bind_eq_some.mpr ⟨a, s₁, ha, hr⟩⟩

theorem bind {x : Parser α} {f : α → Parser β} {result' : β → Parts}
    {post' : β → ParserState → Prop} (hx : Builds ds s x start result post)
    (hf : ∀ a s₁, post a s₁ → s.nextId ≤ s₁.nextId → Builds es s₁ (f a) (result a) result' post') :
    Builds (ds ++ es) s (x >>= f) start result' post' :=
  bind_of hx (fun a s₁ ha hle => (hf a s₁ ha hle).1) fun a s₁ ha hle _ => (hf a s₁ ha hle).2

/-- Parts that the action leaves alone. -/
theorem frame {x : Parser α} (C : Parts) (h : Builds ds s x start result post) :
    Builds ds s x (start + C) (fun r => result r + C) post := by
  refine ⟨fun r s' hr => ?_, h.2⟩
  obtain ⟨hpost, D, new, hD, hnew, hparts⟩ := h.1 r s' hr
  refine ⟨hpost, D, new, hD, hnew, ?_⟩
  rw [add_right_comm, hparts, add_right_comm]

theorem unframe {x : Parser α} (C : Parts) (h : Builds ds s x (start + C) (fun r => result r + C) post) :
    Builds ds s x start result post := by
  refine ⟨fun r s' hr => ?_, h.2⟩
  obtain ⟨hpost, D, new, hD, hnew, hparts⟩ := h.1 r s' hr
  refine ⟨hpost, D, new, hD, hnew, add_right_cancel (b := C) ?_⟩
  rw [add_right_comm, hparts, add_right_comm]

/-- The same parts in another order. -/
theorem parts {x : Parser α} {start' : Parts} {result' : α → Parts}
    (h : Builds ds s x start result post) (hstart : start = start')
    (hresult : ∀ r, result r = result' r) : Builds ds s x start' result' post := by
  rw [← hstart, ← funext hresult]
  exact h

theorem mono {x : Parser α} {post' : α → ParserState → Prop} (h : Builds ds s x start result post)
    (hpost : ∀ r s', post r s' → post' r s') : Builds ds s x start result post' := by
  refine ⟨fun r s' hr => ?_, h.2⟩
  obtain ⟨hr', hD⟩ := h.1 r s' hr
  exact ⟨hpost r s' hr', hD⟩

/-- Only the items and the buildability of the AST nodes count. -/
theorem nodes {x : Parser α} (h : Builds ds s x start result post)
    (hitems : (ds.filterMap itemOf).Perm (es.filterMap itemOf))
    (hgood : ds.all isBuildableNode = es.all isBuildableNode) :
    Builds es s x start result post := by
  refine ⟨fun r s' hr => ?_, fun hes => h.2 (hgood.trans hes)⟩
  obtain ⟨hpost, D, new, hD, hnew, hparts⟩ := h.1 r s' hr
  refine ⟨hpost, D, new, { hD with markers_eq := ?_, whole := ?_, items_eq := ?_ }, hnew, hparts⟩
  · exact fun hes => hD.markers_eq (hgood.trans hes)
  · rw [hD.whole, hgood]
  · intro hes
    rw [hD.items_eq (hgood.trans hes)]
    exact Multiset.coe_eq_coe.mpr hitems

theorem perm {x : Parser α} (h : Builds ds s x start result post) (hperm : ds.Perm es) :
    Builds es s x start result post :=
  h.nodes (hperm.filterMap itemOf) hperm.all_eq

/-- Nodes without items are built by doing nothing. -/
theorem plain {x : Parser α} (h : Builds ds s x start result post)
    (hes : ∀ d ∈ es, itemOf d = none ∧ isBuildableNode d = true) :
    Builds (ds ++ es) s x start result post := by
  have hitems : es.filterMap itemOf = [] := List.filterMap_eq_nil_iff.mpr fun d hd => (hes d hd).1
  have hgood : es.all isBuildableNode = true := List.all_eq_true.mpr fun d hd => (hes d hd).2
  exact h.nodes (by simp [hitems]) (by simp [hgood])

/-- An item of the result that the AST node `n` asks for. -/
theorem item {x : Parser α} {n : PgNode} {item : Item} (h : Builds ds s x start result post)
    (hitem : itemOf n = some item) (hbuild : isBuildableNode n = true) :
    Builds (ds ++ [n]) s x start (fun r => result r + { items := {item} }) post := by
  refine ⟨fun r s' hr => ?_, fun hgood => h.2 (by simp_all)⟩
  obtain ⟨hpost, D, new, hD, hnew, hparts⟩ := h.1 r s' hr
  have hone : Accounts [n] s' s' { items := {item} } := by
    refine ⟨le_rfl, le_rfl, ?_, ?_, ?_, ?_, ?_, ?_, ?_⟩ <;> simp [hitem, hbuild]
  refine ⟨hpost, _, new, hD.trans hone, hnew, ?_⟩
  rw [add_right_comm, hparts, add_assoc]

/-- The addresses of a result that is built from nothing are fresh. -/
theorem fresh {x : Parser α} (h : Builds ds s x start result post) (hstart : start.ids = 0) :
    Builds ds s x start result fun r s' =>
      post r s' ∧ ∀ i ∈ (result r).ids, s.nextId ≤ i ∧ i < s'.nextId := by
  refine ⟨fun r s' hr => ?_, h.2⟩
  obtain ⟨hpost, D, new, hD, hnew, hparts⟩ := h.1 r s' hr
  refine ⟨⟨hpost, fun i hi => hD.ids_mem i ?_⟩, D, new, hD, hnew, hparts⟩
  have hids := congrArg Parts.ids hparts
  simp only [Parts.ids_add, hstart, zero_add] at hids
  rw [← hids]
  exact Multiset.mem_add.mpr (.inl hi)

/-- What is built from a whole tree has no empty place, if it can be built. -/
theorem whole {x : Parser α} (h : Builds ds s x start result post) (hstart : start.holes = 0) :
    Builds ds s x start result fun r s' =>
      post r s' ∧ (ds.all isBuildableNode = true → (result r).holes = 0) := by
  refine ⟨fun r s' hr => ?_, h.2⟩
  obtain ⟨hpost, D, new, hD, hnew, hparts⟩ := h.1 r s' hr
  refine ⟨⟨hpost, fun hgood => ?_⟩, D, new, hD, hnew, hparts⟩
  have hholes := congrArg Parts.holes hparts
  simp only [Parts.holes_add, hstart, zero_add, hD.whole.mpr hgood] at hholes
  exact (Nat.add_eq_zero_iff.mp hholes).1

theorem newId (s : ParserState) (start : Parts) :
    Builds [] s newId start (fun i => start + { ids := {i} }) fun i s' =>
      i = s.nextId ∧ s' = { s with nextId := s.nextId + 1 } := by
  refine ⟨fun r s' h => ?_, fun _ => rfl⟩
  obtain ⟨rfl, rfl⟩ := Prod.mk.inj (newId_eq_some.mp h)
  refine ⟨⟨rfl, rfl⟩, { ids := {s.nextId} }, [], ?_, by simp, by simp⟩
  exact {
    counter_le := le_rfl
    nextId_le := Nat.le_succ _
    ids_nodup := Multiset.nodup_singleton _
    ids_mem := by simp
    joinMarkers_nodup := by simp
    joinMarkers_mem := by simp
    markers_eq := fun _ => rfl
    whole := by simp
    items_eq := by simp }

theorem pushCte (s : ParserState) (start : Parts) (cte : RaNode) :
    Builds [] s (pushCte cte) (start + Inventory.parts cte) (fun _ => start) fun _ _ => True := by
  refine ⟨fun r s' h => ?_, fun _ => rfl⟩
  obtain ⟨rfl, rfl⟩ := Prod.mk.inj (pushCte_eq_some.mp h)
  refine ⟨trivial, 0, [cte], ⟨le_rfl, le_rfl, ?_, ?_, ?_, ?_, ?_, ?_, ?_⟩, rfl, ?_⟩ <;> simp

/-- `add_subtree` on a tree that is open on the left. -/
theorem attachTo {base sub : RaNode} (hb : LeftOpen base) (hsub : sub ≠ .hole)
    (hids : ∀ i ∈ base.ids, i ∉ sub.ids) :
    Builds [] s (attachTo base sub) (Inventory.parts base + Inventory.parts sub)
      (fun t => Inventory.parts t + Inventory.parts .hole)
      fun t s' => t = graft sub base ∧ s' = s := by
  have hadd : addSubtree base sub = some (graft sub base) :=
    (addSubtree_leftOpen hb).mpr ⟨hsub, fun i hi htip => hids i (mem_ids_of_tip htip) hi, rfl⟩
  have hpure : Builder.attachTo base sub = Pure.pure (graft sub base) := by
    rw [Builder.attachTo, hadd]
    rfl
  rw [hpure]
  exact Builds.pure (parts_graft hb sub) ⟨rfl, rfl⟩

end Builds

end SqlOptimizer.Parse.Accounting
