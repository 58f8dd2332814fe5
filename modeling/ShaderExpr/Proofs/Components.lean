import ShaderExpr.Proofs.Operations
import ShaderExpr.Proofs.Rules

/-!
# The components of results

A value is determined by its type and its components.  What an operation gives is told here by the components: a result
is rebuilt from components of its own kind without a change (`Value.exists_rebuild`), and an accessor picks the
components whose indices its letters have (`Value.exists_access`).
-/

namespace ShaderExpr

theorem mapM_eq_ok {ε α β : Type} {f : α → Except ε β} {xs : List α} {ys : List β} :
    xs.mapM f = .ok ys ↔ List.Forall₂ (fun x y => f x = .ok y) xs ys := by
  induction xs generalizing ys with
  | nil =>
    rw [List.mapM_nil, List.forall₂_nil_left_iff]
    exact ⟨fun h => (Except.ok.inj h).symm, fun h => congrArg Except.ok h.symm⟩
  | cons x xs ih =>
    rw [List.mapM_cons, List.forall₂_cons_left_iff]
    cases hx : f x with
    | error e => simp [bind, Except.bind]
    | ok y =>
      simp only [← ih]
      cases xs.mapM f with
      | error e => simp [bind, Except.bind]
      | ok rest => simp [bind, Except.bind, pure, Except.pure, eq_comm]

theorem mapM_eq_some_iff_map {α β : Type} {f : α → Option β} {xs : List α} {ys : List β} :
    xs.mapM f = some ys ↔ xs.map f = ys.map some := by
  rw [mapM_eq_some, ← List.forall₂_eq_eq_eq, List.forall₂_map_left_iff, List.forall₂_map_right_iff]

theorem forall₂_trans {α β γ : Type} {R : α → β → Prop} {S : β → γ → Prop} {T : α → γ → Prop}
    (hcomp : ∀ x y z, R x y → S y z → T x z) {xs : List α} {ys : List β} {zs : List γ} (h : List.Forall₂ R xs ys)
    (h' : List.Forall₂ S ys zs) : List.Forall₂ T xs zs := by
  induction h generalizing zs with
  | nil =>
    cases h'
    exact .nil
  | cons hxy _ ih =>
    obtain ⟨z, rest, hyz, hrest, rfl⟩ := List.forall₂_cons_left_iff.1 h'
    exact .cons (hcomp _ _ _ hxy hyz) (ih hrest)

theorem exists_forall₂_append {α β : Type} {R : α → β → Prop} {xs xs' : List α} {ys : List β}
    (h : List.Forall₂ R (xs ++ xs') ys) :
    ∃ zs zs', ys = zs ++ zs' ∧ List.Forall₂ R xs zs ∧ List.Forall₂ R xs' zs' := by
  induction xs generalizing ys with
  | nil => exact ⟨[], ys, rfl, .nil, h⟩
  | cons x xs ih =>
    obtain ⟨y, rest, hxy, hrest, rfl⟩ := List.forall₂_cons_left_iff.1 h
    obtain ⟨zs, zs', rfl, hzs, hzs'⟩ := ih hrest
    exact ⟨y :: zs, zs', rfl, .cons hxy hzs, hzs'⟩

theorem map_some_inj {α : Type} {xs ys : List α} (h : xs.map some = ys.map some) : xs = ys :=
  List.map_injective_iff.2 (Option.some_injective α) h

theorem length_of_map_eq_map_some {α β : Type} {f : α → Option β} {xs : List α} {ys : List β}
    (h : xs.map f = ys.map some) : ys.length = xs.length := by
  simpa using (congrArg List.length h).symm

/-- The indices of the components that an accessor picks, in order. -/
def Selector.indices (name : String) : List Nat :=
  ((Selector.parse? name).getD []).map Selector.index

theorem Dim.width_injective {d d' : Dim} (h : d.width = d'.width) : d = d' := by
  have hdim := congrArg Dim.ofWidth? h
  rw [Dim.ofWidth?_width, Dim.ofWidth?_width] at hdim
  exact Option.some.inj hdim

namespace ValueType

theorem isMatrix_of_isVector {ty : ValueType} (h : ty.isVector = true) : ty.isMatrix = false := by
  unfold isVector at h
  simp only [Bool.and_eq_true, Bool.not_eq_true'] at h
  exact h.2

/-- Scalars and vectors are known by their kind and their width. -/
theorem eq_of_kind_of_width {a b : ValueType} (ha : a.isMatrix = false) (hb : b.isMatrix = false)
    (hkind : a.kind = b.kind) (hwidth : a.dim.width = b.dim.width) : a = b := by
  have h := ofKindDim?_kind_dim ha
  rw [hkind, Dim.width_injective hwidth, ofKindDim?_kind_dim hb] at h
  exact (Option.some.inj h).symm

variable {source picked : ValueType} {name : String}

theorem checkAccess_iff : source.checkAccess name = .ok picked ↔ source.Accesses name picked :=
  checkAccess_eq_ok.trans accessorResult?_eq_some_iff

/-- An accessor has an index for each component of its result, and the source has all of them. -/
theorem indices_of_checkAccess (h : source.checkAccess name = .ok picked) :
    (Selector.indices name).length = picked.componentCount ∧
      ∀ i ∈ Selector.indices name, i < source.componentCount := by
  obtain ⟨selectors, hparse, hlength, hindex⟩ := exists_selectors h
  unfold Selector.indices
  rw [hparse]
  exact ⟨(List.length_map _).trans hlength, List.forall_mem_map.2 hindex⟩

theorem length_indices (h : source.checkAccess name = .ok picked) :
    (Selector.indices name).length = picked.dim.width := by
  rw [(indices_of_checkAccess h).1, componentCount_eq_width (checkAccess_iff.1 h).not_matrix]

end ValueType

namespace Value

theorem rebuild_components (v : Value) : rebuild v.ty v.components = .ok v := by
  unfold rebuild
  rw [ofComponents?_components]

/-- Components of the right kind and number are a value of a type. -/
theorem exists_rebuild (ty : ValueType) (components : List Scalar) (hlength : components.length = ty.componentCount)
    (hkind : ∀ c ∈ components, c.kind = ty.kind) :
    ∃ w, rebuild ty components = .ok w ∧ w.ty = ty ∧ w.components = components := by
  exact ⟨⟨ty, components, hlength, hkind⟩, rebuild_components ⟨ty, components, hlength, hkind⟩, rfl, rfl⟩

/-- What is rebuilt from components of any kinds has them converted. -/
theorem rebuild_eq_ok {ty : ValueType} {components : List Scalar} {w : Value} :
    rebuild ty components = .ok w ↔
      components.length = ty.componentCount ∧ w.ty = ty ∧ w.components = components.map fun c => c.convert ty.kind := by
  unfold rebuild ofComponents?
  by_cases hlength : components.length = ty.componentCount
  · rw [dif_pos hlength]
    constructor
    · rintro h
      cases h
      exact ⟨hlength, rfl, rfl⟩
    · rintro ⟨_, hty, hcomponents⟩
      exact congrArg Except.ok (ext hty.symm hcomponents.symm)
  · rw [dif_neg hlength]
    exact iff_of_false nofun fun h => hlength h.1

/-- What is rebuilt from components of the right kind has these components. -/
theorem components_of_rebuild {ty : ValueType} {components : List Scalar} {w : Value}
    (h : rebuild ty components = .ok w) (hkind : ∀ c ∈ components, c.kind = ty.kind) :
    w.ty = ty ∧ w.components = components := by
  obtain ⟨hlength, hty, _⟩ := rebuild_eq_ok.1 h
  obtain ⟨w', hw', _, hcomponents⟩ := exists_rebuild ty components hlength hkind
  cases hw'.symm.trans h
  exact ⟨hty, hcomponents⟩

theorem pick?_eq (v : Value) {name : String} {selectors : List Selector}
    (hparse : Selector.parse? name = some selectors) :
    v.pick? name = (Selector.indices name).mapM fun i => v.components[i]? := by
  unfold pick? Selector.indices
  rw [hparse, Option.getD_some, List.mapM_map]
  rfl

/-- An accessor of the type of a value gives the components whose indices its letters have. -/
theorem exists_access {v : Value} {name : String} {picked : ValueType} (source : Handle)
    (h : v.ty.checkAccess name = .ok picked) :
    ∃ w, v.access source name picked = .ok w ∧ w.ty = picked ∧
      (Selector.indices name).map (v.components[·]?) = w.components.map some := by
  obtain ⟨selectors, hparse, _⟩ := ValueType.exists_selectors h
  obtain ⟨hlength, hindex⟩ := ValueType.indices_of_checkAccess h
  obtain ⟨components, hcomponents, hcount⟩ : ∃ components,
      ((Selector.indices name).mapM fun i => v.components[i]?) = some components ∧
        components.length = (Selector.indices name).length := by
    refine exists_mapM_eq_some fun i hi => ⟨_, List.getElem?_eq_getElem ?_⟩
    rw [v.length_components]
    exact hindex i hi
  have hkind : ∀ c ∈ components, c.kind = picked.kind := by
    intro c hc
    obtain ⟨i, _, hi⟩ := exists_of_mem_mapM hcomponents hc
    rw [v.kind_of_mem c (List.mem_of_getElem? hi), (ValueType.checkAccess_iff.1 h).kind]
  obtain ⟨w, hw, hty, hw'⟩ := exists_rebuild picked components (hcount.trans hlength) hkind
  refine ⟨w, ?_, hty, ?_⟩
  · unfold access
    rw [pick?_eq v hparse, hcomponents]
    exact hw
  · rw [hw']
    exact mapM_eq_some_iff_map.1 hcomponents

/-- The picked components determine what an accessor gives. -/
theorem access_eq_ok {v w : Value} {name : String} (source : Handle) (h : v.ty.checkAccess name = .ok w.ty)
    (hcomponents : (Selector.indices name).map (v.components[·]?) = w.components.map some) :
    v.access source name w.ty = .ok w := by
  obtain ⟨w', hw', hty, hpicked⟩ := exists_access source h
  rw [hw', ext hty (map_some_inj (hpicked.symm.trans hcomponents))]

end Value

end ShaderExpr
